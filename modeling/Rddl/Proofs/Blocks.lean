/-
  Rddl/Proofs/Blocks.lean
  =======================
  **What the blocks of a text give to its model.**

  A model that was read from a text holds what the last block of each kind gives
  (`Model.exists_blocks_of_verdict`), and of a block the last section with a key counts.  The
  declarations, functions and expressions of a block are what these sections have in them, and
  the data of the domain are made from them (`DomainBlock.Gives`).
-/
import Rddl.Proofs.Outcome
import Rddl.Proofs.Syntax.Parts

namespace Rddl

/-! ### The sections that count -/

namespace DomainBlock

/-- The section of a domain that counts for a key. -/
def section? (b : DomainBlock) (key : String) : Option DomainSection :=
  lastWith? DomainSection.key key b.sections

def types (b : DomainBlock) : List TypeDecl :=
  match b.section? "types" with
  | some (.types decls) => decls
  | _ => []

def vars (b : DomainBlock) : List PVarDecl :=
  match b.section? "pvariables" with
  | some (.pvariables decls) => decls
  | _ => []

def functions (b : DomainBlock) : List CpfDecl :=
  match b.section? "cpfs" with
  | some (.cpfs _ decls) => decls
  | _ => []

/-- The expressions of the section that counts for a key. -/
def expressions (b : DomainBlock) (key : String) : List Expr :=
  ((b.section? key).map DomainSection.expressions).getD []

end DomainBlock

def NonFluentsBlock.section? (n : NonFluentsBlock) (key : String) : Option NonFluentsSection :=
  lastWith? NonFluentsSection.key key n.sections

def InstanceBlock.section? (i : InstanceBlock) (key : String) : Option InstanceSection :=
  lastWith? InstanceSection.key key i.sections

/-- The data of a domain are those of the declarations, functions and expressions of a block. -/
structure DomainBlock.Gives (b : DomainBlock) (d : Domain) : Prop where
  name : d.name = .text b.name
  types : d.types = .list (b.types.map TypeDecl.datum)
  declares : d.Declares b.vars b.functions
  reward : ∃ e, b.expressions "reward" = [e] ∧ d.reward = e.datum
  preconditions : d.preconditions = .list ((b.expressions "preconds").map Expr.datum)
  constraints : d.constraints = .list ((b.expressions "constraints").map Expr.datum)
  invariants : d.invariants = .list ((b.expressions "invariants").map Expr.datum)

namespace DomainBlock

theorem value?_eq (b : DomainBlock) (key : String) :
    b.value? key = (b.section? key).map DomainSection.datum := rfl

variable {b : DomainBlock} {d : Domain}

theorem types_eq (h : d.IsOf b) : d.types = .list (b.types.map TypeDecl.datum) := by
  rw [h.types, value?_eq, types]
  cases hs : b.section? "types" with
  | none => rfl
  | some s =>
    have hkey := key_of_lastWith? hs
    cases s with
    | types decls => rfl
    | _ => simp [DomainSection.key] at hkey

theorem pvariables_eq (h : d.IsOf b) :
    d.pvariables = .list (b.vars.map fun v => v.pvariable.datum) := by
  obtain ⟨s, hs, hdatum⟩ := Option.map_eq_some_iff.mp h.pvariables
  have hkey := key_of_lastWith? hs
  rw [vars, section?, hs]
  cases s with
  | pvariables decls => exact hdatum.symm
  | _ => simp [DomainSection.key] at hkey

theorem cpfs_eq (h : d.IsOf b) :
    ∃ header, d.cpfs = .tuple [header, .list (b.functions.map CpfDecl.datum)] := by
  obtain ⟨s, hs, hdatum⟩ := Option.map_eq_some_iff.mp h.cpfs
  have hkey := key_of_lastWith? hs
  rw [functions, section?, hs]
  cases s with
  | cpfs header decls => exact ⟨_, hdatum.symm⟩
  | _ => simp [DomainSection.key] at hkey

theorem reward_eq (h : d.IsOf b) : ∃ e, b.expressions "reward" = [e] ∧ d.reward = e.datum := by
  obtain ⟨s, hs, hdatum⟩ := Option.map_eq_some_iff.mp h.reward
  have hkey := key_of_lastWith? hs
  rw [expressions, section?, hs]
  cases s with
  | reward body => exact ⟨body, rfl, hdatum.symm⟩
  | _ => simp [DomainSection.key] at hkey

def conditionKeys : List String := ["preconds", "constraints", "invariants"]

theorem conditions_eq {key : String} (hkey : key ∈ conditionKeys) :
    (b.value? key).getD (.list []) = .list ((b.expressions key).map Expr.datum) := by
  rw [value?_eq, expressions]
  cases hs : b.section? key with
  | none => rfl
  | some s =>
    have hown := key_of_lastWith? hs
    subst hown
    cases s with
    | preconditions _ => rfl
    | constraints _ => rfl
    | invariants _ => rfl
    | _ => simp [conditionKeys, DomainSection.key] at hkey

end DomainBlock

/-! ### What is written in a block -/

/-- The expressions of a section are written in it. -/
theorem DomainSection.exists_written_of_mem_expressions {s : DomainSection} {ls : List Lexeme}
    (h : s.Written ls) {e : Expr} (he : e ∈ s.expressions) : ∃ l, e.Written l ∧ l ⊆ ls := by
  -- all lists of conditions are alike, and so are both spellings of the functions
  have hcondition : ∀ {conditions : List Expr} {l : List Lexeme} {k : Lexeme},
      Items ConditionWritten conditions l → e ∈ conditions →
      ∃ l', e.Written l' ∧ l' ⊆ k :: inBraces l := by
    intro conditions l k hitems hmem
    obtain ⟨l', hl', hsub⟩ := hitems.exists_of_mem hmem
    cases hl' with
    | mk hwritten => exact ⟨_, hwritten, fun x hx =>
        List.mem_cons_of_mem k (mem_inBraces (hsub (List.mem_append_left _ hx)))⟩
  have hfunction : ∀ {decls : List CpfDecl} {l : List Lexeme} {k : Lexeme},
      Items CpfDecl.Written decls l → e ∈ decls.map CpfDecl.body →
      ∃ l', e.Written l' ∧ l' ⊆ k :: inBraces l := by
    intro decls l k hitems hmem
    obtain ⟨f, hf, rfl⟩ := List.mem_map.mp hmem
    obtain ⟨l', hl', hsub⟩ := hitems.exists_of_mem hf
    cases hl' with
    | mk _ hbody => exact ⟨_, hbody, fun x hx =>
        List.mem_cons_of_mem k (mem_inBraces (hsub (by simp [hx])))⟩
  cases h with
  | types _ => cases he
  | pvariables _ => cases he
  | cpfs hdecls => exact hfunction hdecls he
  | cdfs hdecls => exact hfunction hdecls he
  | reward hbody =>
    cases List.mem_singleton.mp he
    exact ⟨_, hbody, by grind⟩
  | preconditions hconditions => exact hcondition hconditions he
  | constraints hconditions => exact hcondition hconditions he
  | invariants hconditions => exact hcondition hconditions he

namespace DomainBlock

variable {doc : Document} {ls : List Lexeme} {b : DomainBlock}

theorem exists_written_of_mem_expressions (h : doc.Written ls) (hb : .domain b ∈ doc)
    {key : String} {e : Expr} (he : e ∈ b.expressions key) : ∃ l, e.Written l ∧ l ⊆ ls := by
  rw [expressions] at he
  cases hs : b.section? key with
  | none => simp [hs] at he
  | some s =>
    rw [hs] at he
    obtain ⟨l, hl, hsub⟩ := Document.exists_written_section h hb (mem_of_lastWith? hs)
    obtain ⟨l', hl', hsub'⟩ := DomainSection.exists_written_of_mem_expressions hl he
    exact ⟨l', hl', List.Subset.trans hsub' hsub⟩

theorem body_mem_expressions {f : CpfDecl} (h : f ∈ b.functions) :
    f.body ∈ b.expressions "cpfs" := by
  rw [functions] at h
  rw [expressions]
  split at h
  · next hs =>
    rw [hs]
    exact List.mem_map_of_mem h
  · cases h

/-- What a domain block gives to the domain of a model that was read from a text. -/
theorem gives_of_isOf {line : Nat} {text : String} {d : Domain} (h : doc.Written ls)
    (hls : ls ⊆ (Scan.ofText line text).lexemes) (hb : .domain b ∈ doc) (hisOf : d.IsOf b) :
    b.Gives d := by
  refine ⟨hisOf.name, types_eq hisOf, ⟨pvariables_eq hisOf, cpfs_eq hisOf, ?_, ?_⟩, reward_eq hisOf,
    ?_, ?_, ?_⟩
  · -- the name of a declared variable is an identifier of the text
    intro v hv
    rw [vars] at hv
    split at hv
    · next hs =>
      obtain ⟨l, hl, hsub⟩ := Document.exists_written_section h hb (mem_of_lastWith? hs)
      exact Scan.isIdent_of_mem_lexemes (hls (hsub (PVarDecl.ident_mem hl hv)))
    · cases hv
  · -- and so is that of a defined one
    intro f hf
    rw [functions] at hf
    split at hf
    · next hs =>
      obtain ⟨l, hl, hsub⟩ := Document.exists_written_section h hb (mem_of_lastWith? hs)
      exact Scan.isIdent_of_mem_lexemes (hls (hsub (CpfDecl.ident_mem hl hf)))
    · cases hf
  · rw [hisOf.preconditions, conditions_eq (by simp [conditionKeys])]
  · rw [hisOf.constraints, conditions_eq (by simp [conditionKeys])]
  · rw [hisOf.invariants, conditions_eq (by simp [conditionKeys])]

end DomainBlock

/-- The condition that ends an instance is written in it. -/
theorem InstanceBlock.exists_written_of_horizon {doc : Document} {ls : List Lexeme}
    {i : InstanceBlock} {test : Expr} (h : doc.Written ls) (hi : .problem i ∈ doc)
    (hs : i.section? "horizon" = some (.horizon (.condition test))) :
    ∃ l, test.Written l ∧ l ⊆ ls := by
  obtain ⟨l, hl, hsub⟩ := Document.exists_written_problem h hi (mem_of_lastWith? hs)
  cases hl with
  | horizon hlimit =>
    cases hlimit with
    | condition htest => exact ⟨_, htest, fun x hx => hsub (by simp [hx])⟩

/-- **A model holds what the last block of each kind gives.** -/
theorem Model.exists_blocks_of_verdict {line : Nat} {text : String} {m : Model}
    (h : (Reading.ofText line text).verdict = .model m) :
    ∃ (doc : Document) (ls : List Lexeme) (b : DomainBlock) (n : NonFluentsBlock)
      (i : InstanceBlock), doc.Written ls ∧ ls <:+ (Scan.ofText line text).lexemes ∧
      doc.last? "domain" = some (.domain b) ∧ doc.last? "non_fluents" = some (.nonFluents n) ∧
      doc.last? "instance" = some (.problem i) ∧ m.IsOf b n i ∧ b.Gives m.domain := by
  obtain ⟨doc, ls, hwritten, hmodel, hsuffix⟩ := Reading.exists_document_of_verdict h
  obtain ⟨b, n, i, hb, hn, hi, hisOf⟩ := Document.isOf_of_model hmodel
  exact ⟨doc, ls, b, n, i, hwritten, hsuffix, hb, hn, hi, hisOf,
    DomainBlock.gives_of_isOf hwritten hsuffix.subset (mem_of_lastWith? hb) hisOf.domain⟩

end Rddl
