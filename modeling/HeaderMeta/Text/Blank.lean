/-! Blank characters: the Unicode `White_Space` property, and trimming by it.

Trimming works on character lists; the versions on strings go through them.
-/

set_option autoImplicit false

namespace HeaderMeta.Text

def isBlank (c : Char) : Bool :=
  let n := c.toNat
  (9 ≤ n && n ≤ 13) || n == 0x20 || n == 0x85 || n == 0xA0 || n == 0x1680 ||
    (0x2000 ≤ n && n ≤ 0x200A) || n == 0x2028 || n == 0x2029 || n == 0x202F ||
    n == 0x205F || n == 0x3000

def trimStartChars (cs : List Char) : List Char :=
  cs.dropWhile isBlank

def trimEndChars (cs : List Char) : List Char :=
  (cs.reverse.dropWhile isBlank).reverse

def trimChars (cs : List Char) : List Char :=
  trimEndChars (trimStartChars cs)

def trim (s : String) : String :=
  String.ofList (trimChars s.toList)

def blankSeparated (s : String) : List String :=
  go s.toList []
where
  go : List Char → List Char → List String
    | [], word => close word
    | c :: cs, word => if isBlank c then close word ++ go cs [] else go cs (c :: word)
  close (word : List Char) : List String :=
    if word.isEmpty then [] else [String.ofList word.reverse]

end HeaderMeta.Text
