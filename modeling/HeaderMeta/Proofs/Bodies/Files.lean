import HeaderMeta.Proofs.Bodies.Statements

/-! Implementation files: the functions they define and the code their text stands for. -/

set_option autoImplicit false

namespace HeaderMeta

open Code

namespace Maker
variable {m : Maker}

theorem IsLine.not_isBrace {text : String} (line : m.IsLine text) : ¬ IsBrace text := by
  rintro brace
  rcases line with fixed | ⟨entry, mem, name, rfl⟩
  · have other : ∀ text ∈ m.opening ++ m.closing, text ≠ "\x7b" ∧ text ≠ "\x7d" := by
      rcases m with (_ | _) | _ <;> decide +kernel
    rcases brace with rfl | rfl
    · exact (other _ fixed).1 rfl
    · exact (other _ fixed).2 rfl
  · have apart : ∀ entry ∈ m.forms,
        Form.Apart entry.1 ["\x7b"] ∧ Form.Apart entry.1 ["\x7d"] := by
      rcases m with (_ | _) | _ <;> decide +kernel
    rcases brace with same | same
    · exact Form.fill_ne (apart entry mem).1 name "" same
    · exact Form.fill_ne (apart entry mem).2 name "" same

theorem braceless_body (m : Maker) (t : EmitTarget) : Braceless (m.body t) :=
  fun text mem => ((m.says_body t).lines text mem).not_isBrace

end Maker

/-! The files themselves: directives, then one namespace with the functions. -/

section Files
variable (header source target : String)

def implementationFile (inner : Code) : Code :=
  [.line ("#include \"" ++ header ++ "\""), .line ("#include \"" ++ source ++ "\"")] ++
    namespacePrelude target ++ Code.block ("namespace " ++ target) inner

def templateFunction (head : String) (body : Code) : Code :=
  .line "template<>" :: Code.block head body

theorem functions_implementationFile (inner : Code) :
    functions (implementationFile header source target inner) =
      functions (inner ++ [.closeBlock]) := by
  have directive (file : String) : "#include \"" ++ file ++ "\"" ≠ "template<>" := by
    rw [String.append_assoc]
    exact Form.append_ne (by decide +kernel) _
  have scope (rest : String) : "namespace " ++ rest ≠ "template<>" :=
    Form.append_ne (by decide +kernel) rest
  have prelude (code : Code) : functions (namespacePrelude target ++ code) = functions code := by
    unfold namespacePrelude
    split
    · simp only [String.append_assoc, List.singleton_append]
      exact functions_line (scope _) code
    · rfl
  have shape : Code.block ("namespace " ++ target) inner =
      .line ("namespace " ++ target) :: .openBlock :: (inner ++ [.closeBlock]) := rfl
  rw [implementationFile, List.append_assoc, List.cons_append, functions_line (directive header),
    List.singleton_append, functions_line (directive source), prelude, shape,
    functions_line (scope target), functions_brace (.inl rfl)]

theorem braceless_implementationFile {inner : Code} (worded : Braceless inner) :
    Braceless (implementationFile header source target inner) := by
  have directive (rest : String) : ¬ IsBrace ("#include \"" ++ rest) :=
    not_or.mpr ⟨Form.append_ne (by decide +kernel) rest, Form.append_ne (by decide +kernel) rest⟩
  have scope (rest : String) : ¬ IsBrace ("namespace " ++ rest) :=
    not_or.mpr ⟨Form.append_ne (by decide +kernel) rest, Form.append_ne (by decide +kernel) rest⟩
  have prelude : Braceless (namespacePrelude target) := by
    unfold namespacePrelude
    split
    · simp only [String.append_assoc, braceless_line]
      exact ⟨scope _, braceless_nil⟩
    · exact braceless_nil
  simp only [implementationFile, String.append_assoc, braceless_append, braceless_line,
    braceless_block]
  exact ⟨⟨⟨directive _, directive _, braceless_nil⟩, prelude⟩, scope target, worded⟩

theorem braceless_templateFunction {lead : String} {body : Code} (worded : Braceless body) :
    Braceless (templateFunction (lead ++ "& obj)") body) := by
  have head : ¬ IsBrace (lead ++ "& obj)") := by
    -- a head ends with its parameter
    have shape : lead ++ "& obj)" = Form.fill ["", "& obj)"] lead := by
      simp [Form.fill, Text.joinWith]
    rw [shape]
    exact not_or.mpr ⟨Form.fill_ne (g := ["\x7b"]) (by decide +kernel) lead "",
      Form.fill_ne (g := ["\x7d"]) (by decide +kernel) lead ""⟩
  have template : ¬ IsBrace "template<>" := by
    rintro (same | same) <;> exact absurd same (by decide +kernel)
  rw [templateFunction, braceless_line, braceless_block]
  exact ⟨template, head, worded⟩

end Files

namespace Maker

def head (m : Maker) (emit : EmitConfig) (name : String) : String :=
  emit.nodiscardMacro ++ " " ++
    match m with
    | reflector access => Reflector.signature access name
    | prototype => Prototype.signature name

variable (m : Maker) (t : EmitTarget) (emit : EmitConfig)

def function : Code :=
  templateFunction (m.head emit t.qualifiedName) (m.body t)

theorem functions_function (rest : Code) :
    functions (m.function t emit ++ rest) =
      (m.head emit t.qualifiedName, m.body t) :: functions rest :=
  functions_template (m.says_body t).closed _ rest

theorem braceless_function : Braceless (m.function t emit) := by
  have head : ∃ lead, m.head emit t.qualifiedName = lead ++ "& obj)" := by
    cases m with
    | reflector access => exact ⟨_, (String.append_assoc ..).symm⟩
    | prototype => exact ⟨_, (String.append_assoc ..).symm⟩
  obtain ⟨lead, same⟩ := head
  rw [function, same]
  exact braceless_templateFunction (m.braceless_body t)

end Maker

namespace EmitTarget
variable (t : EmitTarget) (emit : EmitConfig)

theorem code_reflectorImpl :
    t.code emit .reflectorImpl =
      implementationFile (ArtifactKind.reflectorHeader.fileName t.stem) t.sourceInclude
        emit.targetNamespace
        ((Maker.reflector .mutable).function t emit ++
          (Maker.reflector .constant).function t emit) :=
  rfl

theorem code_prototypeImpl :
    t.code emit .prototypeImpl =
      implementationFile (ArtifactKind.prototypeHeader.fileName t.stem) t.sourceInclude
        emit.targetNamespace (Maker.prototype.function t emit) :=
  rfl

theorem functions_reflectorImpl :
    (t.code emit .reflectorImpl).functions =
      [.reflector .mutable, .reflector .constant].map fun m =>
        (Maker.head m emit t.qualifiedName, m.body t) := by
  rw [code_reflectorImpl, functions_implementationFile, List.append_assoc,
    Maker.functions_function, Maker.functions_function, functions_brace (.inr rfl), functions]
  rfl

theorem functions_prototypeImpl :
    (t.code emit .prototypeImpl).functions =
      [(Maker.prototype.head emit t.qualifiedName, Maker.prototype.body t)] := by
  rw [code_prototypeImpl, functions_implementationFile, Maker.functions_function,
    functions_brace (.inr rfl), functions]

/-- The text of a legible implementation file gives back its code. -/
theorem ofText_implementation {kind : ArtifactKind} (implementation : kind.isHeader = false)
    (legible : (t.code emit kind).Legible) :
    Code.ofText (t.code emit kind).text = t.code emit kind := by
  apply ofText_text legible
  cases kind with
  | reflectorHeader | prototypeHeader => cases implementation
  | reflectorImpl =>
    rw [code_reflectorImpl]
    apply braceless_implementationFile
    exact braceless_append.mpr ⟨Maker.braceless_function _ t emit, Maker.braceless_function _ t emit⟩
  | prototypeImpl =>
    rw [code_prototypeImpl]
    exact braceless_implementationFile _ _ _ (Maker.braceless_function _ t emit)

end EmitTarget

end HeaderMeta
