import HeaderMeta.Proofs.Footprint
import HeaderMeta.Proofs.Including
import HeaderMeta.Proofs.Scanning.Complete

/-! What is scanned and read again after generated files have changed.

The headers of a module lie apart from its generated files, so they are scanned alike. They are read by
their lexical normal forms. Without links such a path finds a file just when one lies where the path
leads, so two volumes that differ in generated files only are read alike, as long as no header that is
read in either of them is a generated file.
-/

set_option autoImplicit false

namespace HeaderMeta

open Volume (Confined Own Fits)

namespace Volume
variable {v w : Volume} {d loc : Location} {p : Path}

theorem Plain.isDirAt_drop (plain : v.Plain) (isDir : v.isDirAt loc = true) (n : Nat) :
    v.isDirAt (loc.drop n) = true := by
  induction n generalizing loc with
  | zero => exact isDir
  | succ n ih =>
    cases loc with
    | nil => exact isDir
    | cons name d => exact ih (plain.isDirAt_of_get? (get?_of_isDirAt isDir))

theorem dirAt_blanks {blanks : List String} (blank : ∀ part ∈ blanks, part = "")
    (isDir : v.isDirAt loc = true) (rest : List String) :
    v.dirAt loc (blanks ++ rest) = v.dirAt loc rest := by
  induction blanks with
  | nil => rfl
  | cons part blanks ih =>
    have here : part = "" := blank part List.mem_cons_self
    rw [List.cons_append, dirAt, ih fun part mem => blank part (List.mem_cons_of_mem _ mem)]
    simp [isDir, here]

theorem dirAt_ups (plain : v.Plain) (isDir : v.isDirAt loc = true) (ups : Nat) :
    v.dirAt loc (List.replicate ups "..") = some (loc.drop ups) := by
  induction ups generalizing loc with
  | zero => simp [dirAt, isDir]
  | succ ups ih =>
    have around := plain.isDirAt_drop isDir 1
    rw [List.drop_one] at around
    rw [List.replicate_succ, dirAt, ih around]
    simp [isDir]

theorem dirAt_names (plain : v.Plain) {parts names : List String} (found : v.dirAt loc parts = some d)
    (isDir : v.isDirAt (names ++ d) = true) :
    v.dirAt loc (parts ++ names.reverse) = some (names ++ d) := by
  induction names with
  | nil => rw [List.reverse_nil, List.append_nil, found, List.nil_append]
  | cons name names ih =>
    obtain ⟨isName, short, around⟩ := plain.of_get? (get?_of_isDirAt isDir)
    rw [List.reverse_cons, ← List.append_assoc, dirAt_concat isName, ih around, Option.bind_some,
      if_pos ⟨short, isDir⟩]
    rfl

/-- A route finds what lies where it leads. -/
theorem locate_route (plain : v.Plain) (here : v.isDirAt v.here = true) {r : Path.Route}
    (fits : Fits r.path) (written : r.path.text ≠ "")
    (there : (v.get? (r.location v)).isSome = true) : v.locate r.path = .ok (r.location v) := by
  obtain ⟨blanks, blank, split⟩ := r.parts_path written
  have start : v.isDirAt (v.startOf r.path) = true := by
    unfold startOf
    split
    · rfl
    · exact here
  -- blanks and steps up lead to a directory that is there
  have base : v.dirAt (v.startOf r.path) (blanks ++ List.replicate r.ups "..") =
      some ((v.startOf r.path).drop r.ups) := by
    rw [dirAt_blanks blank start, dirAt_ups plain start]
  have leads : r.location v = r.down ++ (v.startOf r.path).drop r.ups := by
    rw [Path.Route.location, startOf, r.isAbsolute_path written]
  rw [leads] at there ⊢
  rw [Path.Route.parts, ← List.append_assoc] at split
  by_cases isDir : v.isDirAt (r.down ++ (v.startOf r.path).drop r.ups) = true
  · refine locate_of_fits fits written ?_
    rw [dirOf?, split, dirAt_names plain base isDir]
  · -- then it is not where the steps up lead, and its name stands last
    cases down : r.down with
    | nil =>
      rw [down] at isDir
      exact absurd (plain.isDirAt_drop start r.ups) isDir
    | cons name names =>
      rw [down, List.cons_append] at there
      rw [down] at split
      rw [List.cons_append]
      obtain ⟨node, got⟩ := Option.isSome_iff_exists.mp there
      obtain ⟨isName, short, around⟩ := plain.of_get? got
      rw [List.reverse_cons, ← List.append_assoc] at split
      have walked := walk_concat plain isName .use maxLinks _ (dirAt_names plain base around)
      rw [if_neg (Nat.not_lt.mpr short), got] at walked
      rw [locate, spot_eq fits written, split, walked]
      rfl

/-- When a normal form finds a file. -/
theorem isFile_normalize_iff (plain : v.Plain) (here : v.isDirAt v.here = true) :
    v.isFile p.normalize = true ↔ Fits p.normalize ∧ p.normalize.text ≠ "" ∧
      ∃ bytes, v.get? (v.place p.normalize) = some (.file bytes) := by
  have file_iff (node : Option Node) : node.any Node.isFile = true ↔ ∃ bytes, node = some (.file bytes) := by
    rcases node with _ | _ | _ | _ <;> simp [Node.isFile]
  constructor
  · intro isFile
    obtain ⟨loc, located, -⟩ := locate_of_isFile isFile
    obtain ⟨fits, written, -⟩ := walk_of_spot (spot_of_locate located)
    rw [isFile_of_locate located, eq_place_of_locate plain.linkFree located] at isFile
    exact ⟨fits, written, (file_iff _).mp isFile⟩
  · rintro ⟨fits, written, bytes, there⟩
    obtain ⟨r, normal⟩ := p.exists_route
    rw [normal] at fits written there ⊢
    have leads : v.place r.path = r.location v := r.foldl_enter_path written
    rw [leads] at there
    rw [isFile_of_locate (locate_route plain here fits written (there ▸ rfl)), there]
    rfl

theorem read_of_isFile {bytes : ByteArray} (plain : v.Plain) (isFile : v.isFile p = true)
    (there : v.get? (v.place p) = some (.file bytes)) : v.read p = .ok bytes := by
  obtain ⟨loc, located, -⟩ := locate_of_isFile isFile
  rw [eq_place_of_locate plain.linkFree located] at located
  simp only [Volume.read, located, there, bind, Except.bind]

theorem isFile_of_readText {text : String} (read : v.readText p = .ok text) : v.isFile p = true := by
  unfold readText Volume.read at read
  obtain ⟨bytes, file, -⟩ := ok_of_bind read
  obtain ⟨loc, located, got⟩ := ok_of_bind file
  rw [isFile_of_locate located]
  split at got
  next there => rw [there]; rfl
  next => cases got
  next => cases got

theorem Confined.dirAt (confined : Confined d v w) {parts : List String} {e : Location}
    (found : v.dirAt loc parts = some e) : w.dirAt loc parts = some e := by
  have stays {loc : Location} (here : ¬ (!v.isDirAt loc) = true) : ¬ (!w.isDirAt loc) = true := by
    simpa using confined.dirs loc (by simpa using here)
  fun_induction Volume.dirAt v loc parts with
  | case1 loc isDir =>
    cases found
    rw [Volume.dirAt, if_pos (confined.dirs _ isDir)]
  | case2 | case3 | case6 => cases found
  | case4 loc part rest here step ih =>
    rw [Volume.dirAt, if_neg (stays here), if_pos step, ih found]
  | case5 loc rest here step ih =>
    rw [Volume.dirAt, if_neg (stays here), if_neg step, if_pos rfl, ih found]
  | case7 loc part rest here step down short ih =>
    rw [Volume.dirAt, if_neg (stays here), if_neg step, if_neg down, if_neg short, ih found]

theorem Confined.locate_isDir (confined : Confined d v w) (plain : v.Plain) (isDir : v.isDir p = true)
    (located : v.locate p = .ok loc) : w.isDir p = true ∧ w.locate p = .ok loc := by
  obtain ⟨fits, written, e, found⟩ := (isDir_iff_dirOf? plain).mp isDir
  obtain rfl : e = loc := Option.some_inj.mp (found.symm.trans (dirOf?_of_locate plain isDir located))
  have found' : w.dirOf? p = some e := by
    rw [dirOf?, startOf, confined.here]
    exact confined.dirAt found
  exact ⟨(isDir_iff_dirOf? confined.plain).mpr ⟨fits, written, e, found'⟩,
    locate_of_fits fits written found'⟩

theorem Confined.file_iff (confined : Confined d v w) (other : ¬ Own d loc) (bytes : ByteArray) :
    w.get? loc = some (.file bytes) ↔ v.get? loc = some (.file bytes) := by
  rcases confined.others _ other with same | ⟨none, dir⟩
  · rw [same]
  · simp [none, dir]

section Confined
variable (plain : v.Plain) (confined : Confined d v w) (other : ¬ Own d (v.place p.normalize))
variable (here : v.isDirAt v.here = true)
include plain confined other here

/-- A header other than a generated file is found after a pass just when it was before, and with the
same text. -/
theorem isFile_confined : w.isFile p.normalize = v.isFile p.normalize := by
  have here' : w.isDirAt w.here = true := confined.here ▸ confined.dirs _ here
  rw [Bool.eq_iff_iff, isFile_normalize_iff plain here, isFile_normalize_iff confined.plain here',
    confined.place]
  simp only [confined.file_iff other]

theorem readText_confined (isFile : v.isFile p.normalize = true) :
    w.readText p.normalize = v.readText p.normalize := by
  obtain ⟨-, -, bytes, there⟩ := (isFile_normalize_iff plain here).mp isFile
  have isFile' := (isFile_confined plain confined other here).trans isFile
  rw [readText, readText, read_of_isFile plain isFile there, read_of_isFile confined.plain isFile']
  rw [confined.place]
  exact confined.file other there

end Confined

end Volume

namespace Scan
variable {v w : Volume} {m : SourceModule} {extensions : List String} {src : Location} {p : Path}

theorem Leads.not_own {dirs : List String} {name : String} (leads : Leads m dirs name p)
    (src : Location) : ¬ Own (outputDirName :: src) (name :: (dirs.reverse ++ src)) := by
  rintro ⟨own, -, same⟩
  have last : dirs.reverse = [outputDirName] := List.append_cancel_right (List.cons.inj same).2
  exact leads.apart (List.mem_reverse.mp (last ▸ List.mem_singleton_self outputDirName))

theorem isHeaderBelow_confined (confined : Confined (outputDirName :: src) v w) :
    IsHeaderBelow w m extensions src p ↔ IsHeaderBelow v m extensions src p := by
  constructor
  · rintro ⟨dirs, name, bytes, leads, there, header⟩
    exact ⟨dirs, name, bytes, leads, (confined.file_iff (leads.not_own src) bytes).mp there, header⟩
  · rintro ⟨dirs, name, bytes, leads, there, header⟩
    exact ⟨dirs, name, bytes, leads, (confined.file_iff (leads.not_own src) bytes).mpr there, header⟩

theorem isListed_confined {d : Location} (confined : Confined d v w) :
    IsListed w m src p ↔ IsListed v m src p := by
  have shows (d : Location) (names : List String) : Shows w d names ↔ Shows v d names := by
    induction names generalizing d with
    | nil => rfl
    | cons name names ih => rw [Shows, Shows, confined.faults, ih]
  simp only [IsListed, shows]

/-- The headers of a module are found again when only its generated files have changed. -/
theorem files_confined {scan : Scan} {log : Log} (plain : v.Plain)
    (located : v.locate m.sourceDir = .ok src) (confined : Confined (outputDirName :: src) v w)
    (scanned : ofModule v m extensions = .ok (scan, log)) :
    ∃ scan' log', ofModule w m extensions = .ok (scan', log') ∧ scan'.files = scan.files := by
  obtain ⟨src', entries, there, sources, isOpen, -⟩ := exists_of_ofModule scanned
  obtain rfl : src' = src := Except.ok.inj (there.symm.trans located)
  obtain ⟨sources', located'⟩ := confined.locate_isDir plain sources located
  obtain ⟨said, own⟩ := exists_ofModule located sources isOpen extensions
  obtain ⟨said', other⟩ := exists_ofModule located' sources' (confined.faults ▸ isOpen) extensions
  rw [scanned] at own
  cases own
  refine ⟨_, _, other, ?_⟩
  have sorted (u : Volume) (plain : u.Plain) :
      (ofLeaves u m extensions (leaves u u.depthBound (sortedEntries u m.sourceDir))).files.Pairwise
        fun p q => p.compare q = .lt :=
    ((before_leaves plain _ _ (before_sortedEntries plain m.sourceDir)).imp fun before =>
      before.compare_eq_lt).filter _
  -- both lists are sorted, so they are equal if they have the same members
  refine Path.eq_of_ordered (sorted w confined.plain) (sorted v plain) fun p => ?_
  have found : _ ∧ isFound v extensions p = true ↔ _ := isFound_leaves_iff plain sources located
  have found' : _ ∧ isFound w extensions p = true ↔ _ :=
    isFound_leaves_iff confined.plain sources' located'
  rw [isHeaderBelow_confined confined, isListed_confined confined, ← found] at found'
  simp only [ofLeaves, List.mem_filter, Bool.and_eq_true, ← and_assoc, found']

end Scan

theorem find?_congr {α : Type} {P Q : α → Bool} {xs : List α}
    (forth : ∀ x, xs.find? P = some x → Q x = true) (back : ∀ x, xs.find? Q = some x → P x = true) :
    xs.find? Q = xs.find? P := by
  induction xs with
  | nil => rfl
  | cons x xs ih =>
    by_cases first : P x = true
    · have found : (x :: xs).find? P = some x := List.find?_cons_of_pos first
      rw [found, List.find?_cons_of_pos (forth x found)]
    · have second : ¬ Q x = true := fun passed =>
        first (back x (List.find?_cons_of_pos passed))
      rw [List.find?_cons_of_neg first] at forth ⊢
      rw [List.find?_cons_of_neg second] at back ⊢
      exact ih forth back

namespace Reading
variable {v w : Volume} {d : Location} {request : HeaderRequest}

section Runs
variable {r final other : Reading} {paths others : List Path}

/-- Rounds on one volume are determined by where they start. -/
theorem Run.unique (run : Run v request r paths final) (run' : Run v request r others other) :
    final = other := by
  induction run generalizing others with
  | done dry =>
    cases run' with
    | done _ => rfl
    | round next _ => rw [dry] at next; cases next
  | round next _ ih =>
    cases run' with
    | done dry => rw [dry] at next; cases next
    | round next' rest =>
      cases next.symm.trans next'
      exact ih rest

/-- Headers that are read until nothing is queued are all that is read. -/
theorem ofRequest_of_run (free : v.LinkFree) (run : Run v request (start request) paths final) :
    ofRequest v request = final := by
  obtain ⟨done, held, own⟩ := exists_run free request
  exact own.unique run

theorem Run.transfer (run : Run v request r paths final)
    (same : ∀ p : Pending, p.path ∈ paths → ∀ s, step w request p s = step v request p s) :
    Run w request r paths final := by
  induction run with
  | done dry => exact .done dry
  | @round r final p queue paths next _ ih =>
    refine .round next ?_
    rw [same p List.mem_cons_self]
    exact ih fun q mem => same q (List.mem_cons_of_mem _ mem)

end Runs

theorem foldl_follow_congr {p : Path} {is : List Include}
    (same : ∀ i ∈ is, target? w request p i = target? v request p i) (r : Reading) :
    is.foldl (follow w request p) r = is.foldl (follow v request p) r := by
  induction is generalizing r with
  | nil => rfl
  | cons i is ih =>
    have first : follow w request p r i = follow v request p r i := by
      rw [follow, follow, same i List.mem_cons_self]
    rw [List.foldl_cons, List.foldl_cons, first, ih fun j mem => same j (List.mem_cons_of_mem _ mem)]

theorem step_congr {p : Pending} (text : w.readText p.path = v.readText p.path)
    (same : request.followIncludes = true → ∀ text, v.readText p.path = .ok text →
      ∀ i ∈ (Header.read ⟨p.path, text⟩).includes,
        target? w request p.path i = target? v request p.path i) (r : Reading) :
    step w request p r = step v request p r := by
  rw [step, step, text]
  split
  · rfl
  next text read =>
    rw [take, take]
    cases follows : request.followIncludes with
    | false => rfl
    | true => simp only [if_true, foldl_follow_congr (same follows text read)]

section Apart
variable (plain : v.Plain) (here : v.isDirAt v.here = true) (confined : Confined d v w)
variable (apart : ∀ p, Reachable v request p → ¬ Own d (v.place p))
variable (apart' : ∀ p, Reachable w request p → ¬ Own d (v.place p))
variable (readable : ∀ file ∈ request.files, Readable v file.normalize)

/-- What is reached is known by a normal form and is a file. -/
theorem isFile_of_reachable (readable : ∀ file ∈ request.files, Readable v file.normalize) {p : Path}
    (reached : Reachable v request p) : v.isFile p = true ∧ ∃ q : Path, p = q.normalize := by
  obtain ⟨file, asked, way⟩ := reached
  cases way with
  | refl =>
    obtain ⟨text, read⟩ := readable file asked
    exact ⟨Volume.isFile_of_readText read, file, rfl⟩
  | tail _ inc => exact normal_of_includes inc

theorem Reachable.includes {p q : Path} (reached : Reachable v request p)
    (inc : Includes v request p q) : Reachable v request q := by
  obtain ⟨file, asked, way⟩ := reached
  exact ⟨file, asked, way.tail inc⟩

include plain here confined apart readable

theorem readText_reachable {p : Path} (reached : Reachable v request p) :
    w.readText p = v.readText p := by
  obtain ⟨isFile, q, rfl⟩ := isFile_of_reachable readable reached
  exact Volume.readText_confined plain confined (apart _ reached) here isFile

include apart'

/-- An include stands for the same header in both volumes. -/
theorem target?_confined {p : Path} {text : String} (reached : Reachable v request p)
    (reached' : Reachable w request p) (follows : request.followIncludes = true)
    (read : v.readText p = .ok text) {i : Include} (mem : i ∈ (Header.read ⟨p, text⟩).includes) :
    target? w request p i = target? v request p i := by
  have read' : w.readText p = .ok text :=
    (readText_reachable plain here confined apart readable reached).trans read
  -- what is found in one volume is no generated file, so it is found in the other
  refine find?_congr (fun q found => ?_) (fun q found => ?_)
  · have inc : Includes v request p q := ⟨follows, text, read, i, mem, found⟩
    obtain ⟨isFile, own, rfl⟩ := normal_of_includes inc
    exact (Volume.isFile_confined plain confined (apart _ (reached.includes inc)) here).trans isFile
  · have inc : Includes w request p q := ⟨follows, text, read', i, mem, found⟩
    obtain ⟨isFile, own, rfl⟩ := normal_of_includes inc
    exact (Volume.isFile_confined plain confined (apart' _ (reached'.includes inc)) here).symm.trans
      isFile

theorem reachable_confined {p : Path} (reached : Reachable v request p) : Reachable w request p := by
  obtain ⟨file, asked, way⟩ := reached
  induction way with
  | refl => exact ⟨file, asked, .refl⟩
  | @tail q p before inc ih =>
    have reached : Reachable v request q := ⟨file, asked, before⟩
    obtain ⟨follows, text, read, i, mem, found⟩ := inc
    have same := target?_confined plain here confined apart apart' readable reached ih follows read mem
    exact ih.includes ⟨follows, text,
      (readText_reachable plain here confined apart readable reached).trans read, i, mem,
      same.trans found⟩

/-- The same headers are read in the same order. -/
theorem ofRequest_confined : ofRequest w request = ofRequest v request := by
  obtain ⟨done, held, run⟩ := exists_run plain.linkFree request
  refine ofRequest_of_run confined.plain.linkFree (run.transfer fun p mem r => ?_)
  have reached : Reachable v request p.path := (held.mem_iff run.queue_eq_nil p.path).mp mem
  have reached' := reachable_confined plain here confined apart apart' readable reached
  exact step_congr (readText_reachable plain here confined apart readable reached)
    (fun follows text read i inside =>
      target?_confined plain here confined apart apart' readable reached reached' follows read inside) r

theorem read_confined :
    HeaderTree.read w request = HeaderTree.read v request := by
  unfold HeaderTree.read
  rw [ofRequest_confined plain here confined apart apart' readable]

end Apart

theorem files_reached {tree : HeaderTree} (free : v.LinkFree)
    (ok : (HeaderTree.read v request).1 = .ok tree) :
    (∀ file ∈ request.files, Readable v file.normalize) ∧
      ∀ p ∈ tree.files, Reachable v request p := by
  obtain ⟨done, held, run⟩ := exists_run free request
  have dry := run.queue_eq_nil
  constructor
  · intro file asked
    by_contra lost
    obtain ⟨failure, failed⟩ := HeaderTree.exists_error_iff.mpr
      ((held.hasError_iff dry).mpr ⟨file, asked, .inl lost⟩)
    rw [ok] at failed
    cases failed
  · intro p mem
    rw [HeaderTree.files_of_ok ok, held.paths_sources] at mem
    exact (held.mem_iff dry p).mp (List.mem_filter.mp mem).1

section Few
variable {p q : Path} {text other : String}

theorem foldl_follow_of_lost {is : List Include} (lost : ∀ i ∈ is, target? v request p i = none)
    (r : Reading) : is.foldl (follow v request p) r = r := by
  induction is with
  | nil => rfl
  | cons i is ih =>
    have first : follow v request p r i = r := by rw [follow, lost i List.mem_cons_self]
    rw [List.foldl_cons, first, ih fun j mem => lost j (List.mem_cons_of_mem _ mem)]

/-- Requested headers without errors give a tree. -/
theorem exists_tree (free : v.LinkFree) (sound : ∀ file ∈ request.files, ¬ Faulty v file.normalize) :
    ∃ tree log, HeaderTree.read v request = (.ok tree, log) ∧
      tree.root = (ofRequest v request).root.resolved ∧
      tree.files = (ofRequest v request).sources.map (·.path) := by
  obtain ⟨done, held, run⟩ := exists_run free request
  cases result : HeaderTree.read v request with
  | mk outcome log =>
    cases outcome with
    | error failure =>
      obtain ⟨file, mem, faulty⟩ := (held.hasError_iff run.queue_eq_nil).mp
        (HeaderTree.exists_error_iff.mp ⟨failure, by rw [result]⟩)
      exact absurd faulty (sound file mem)
    | ok tree =>
      refine ⟨tree, log, rfl, ?_, HeaderTree.files_of_ok (by rw [result])⟩
      unfold HeaderTree.read at result
      dsimp only at result
      split at result
      · cases result
        rfl
      · cases result

section Found
variable (free : v.LinkFree) (asked : start request = { queue := [⟨p, true⟩], seen := [p] })
variable (read : v.readText p = .ok text)
include free asked read

theorem ofRequest_alone
    (lost : ∀ i ∈ (Header.read ⟨p, text⟩).includes, target? v request p i = none) :
    (ofRequest v request).sources = [⟨p, text⟩] ∧
      (ofRequest v request).root = (({} : Namespace).merge (Header.read ⟨p, text⟩).root).1 := by
  have run : Run v request (start request) [p]
      (step v request ⟨p, true⟩ { queue := [], seen := [p] }) := by
    rw [asked]
    refine .round (p := ⟨p, true⟩) rfl (.done ?_)
    rw [step, read]
    simp [take, foldl_follow_of_lost lost]
  rw [ofRequest_of_run free run, step, read]
  simp [take, foldl_follow_of_lost lost]

theorem ofRequest_pair {i : Include} (follows : request.followIncludes = true)
    (includes : (Header.read ⟨p, text⟩).includes = [i]) (found : target? v request p i = some q)
    (new : q ≠ p) (read' : v.readText q = .ok other)
    (last : (Header.read ⟨q, other⟩).includes = []) :
    (ofRequest v request).sources = [⟨p, text⟩, ⟨q, other⟩] ∧
      (ofRequest v request).root = ((({} : Namespace).merge (Header.read ⟨p, text⟩).root).1.merge
        (Header.read ⟨q, other⟩).root).1 := by
  have run : Run v request (start request) [p, q] (step v request ⟨q, false⟩
      { step v request ⟨p, true⟩ { queue := [], seen := [p] } with queue := [] }) := by
    rw [asked]
    refine .round (p := ⟨p, true⟩) rfl (.round (p := ⟨q, false⟩) ?_ (.done ?_))
    · rw [step, read]
      simp [take, follows, includes, follow, found, new, enqueue]
    · rw [step, read', step, read]
      simp [take, last]
  rw [ofRequest_of_run free run, step, read', step, read]
  simp [take, last, follows, includes, follow, found, new, enqueue]

end Found

end Few

end Reading

end HeaderMeta
