/-
  Rddl/Proofs/Outcome.lean
  ========================
  **What comes of a document.**

  A text that spells a document is read without a syntax error, and what comes of it can
  be told from the document (`Reading.outcome_of_spelled`).  A domain that lacks a section
  it needs stops the reading where it ends, so the first such domain decides, whatever
  blocks there are behind it; only then does it matter whether a block is lacking.  In a
  model the last block of each kind counts, and in a block the last section with a key.
-/
import Rddl.Proofs.Collections
import Rddl.Proofs.Reader.ReadsDocument
import Rddl.Proofs.Reading

namespace Rddl

/-! ### The last with a key -/

section LastWith

variable {α : Type} {key : α → String} {k : String} {x : α} {xs : List α}

def lastWith? (key : α → String) (k : String) (xs : List α) : Option α :=
  xs.reverse.find? fun x => key x == k

def lacking (key : α → String) (needed : List String) (xs : List α) : List String :=
  needed.filter fun k => xs.all fun x => key x != k

theorem lastWith?_cons : lastWith? key k (x :: xs) =
    (lastWith? key k xs).or (if key x == k then some x else none) := by
  rw [lastWith?, List.reverse_cons, List.find?_append]
  by_cases hkey : key x = k <;> simp [lastWith?, hkey]

theorem lastWith?_eq_none : lastWith? key k xs = none ↔ ∀ x ∈ xs, key x ≠ k := by
  simp [lastWith?]

theorem key_of_lastWith? (h : lastWith? key k xs = some x) : key x = k := by
  simpa using List.find?_some h

theorem mem_of_lastWith? (h : lastWith? key k xs = some x) : x ∈ xs :=
  List.mem_reverse.mp (List.mem_of_find?_eq_some h)

theorem lacking_cons_of_none {ks : List String} (h : lastWith? key k xs = none) :
    lacking key (k :: ks) xs = k :: lacking key ks xs := by
  have hall := lastWith?_eq_none.mp h
  exact List.filter_cons_of_pos (by simpa using hall)

theorem lacking_cons_of_some {ks : List String} (h : lastWith? key k xs = some x) :
    lacking key (k :: ks) xs = lacking key ks xs := by
  refine List.filter_cons_of_neg ?_
  have hmem := mem_of_lastWith? h
  have hkey := key_of_lastWith? h
  intro hall
  simpa [hkey] using List.all_eq_true.mp hall x hmem

/-- A key that is not lacking is had by some item. -/
theorem exists_lastWith?_of_lacking {needed : List String} (h : lacking key needed xs = [])
    (hk : k ∈ needed) : ∃ x, lastWith? key k xs = some x := by
  cases hlast : lastWith? key k xs with
  | some x => exact ⟨x, rfl⟩
  | none =>
    have hkeys := lastWith?_eq_none.mp hlast
    exact absurd (by simpa using hkeys) (List.filter_eq_nil_iff.mp h k hk)

theorem Table.find?_ofList_lastWith? {β : Type} {value : α → β} :
    (Table.ofList (xs.map fun s => (key s, value s))).find? k =
      (lastWith? key k xs).map value := by
  rw [Table.find?_ofList, ← List.map_reverse, List.find?_map, Option.map_map]
  rfl

theorem Attributes.find?_extend_lastWith? {datum : α → Datum} (base : Attributes) :
    (base.extend (xs.map fun s => (key s, datum s))).find? k =
      ((lastWith? key k xs).map datum).or (base.find? k) := by
  rw [Attributes.extend, Table.find?_foldl_insert, ← List.map_reverse, List.find?_map,
    Option.map_map]
  rfl

end LastWith

/-! ### Domains -/

namespace DomainBlock

def value? (b : DomainBlock) (key : String) : Option Datum :=
  (lastWith? DomainSection.key key b.sections).map DomainSection.datum

/-- The sections that a domain needs and does not have. -/
def lacks (b : DomainBlock) : List String :=
  lacking DomainSection.key ["pvariables", "cpfs", "reward"] b.sections

end DomainBlock

namespace Domain

/-- A domain holds what its block gives, and nothing for other sections it may have. -/
structure IsOf (domain : Domain) (b : DomainBlock) : Prop where
  name : domain.name = .text b.name
  requirements : domain.requirements = (b.requirements.map Datum.texts).getD .absent
  pvariables : b.value? "pvariables" = some domain.pvariables
  cpfs : b.value? "cpfs" = some domain.cpfs
  reward : b.value? "reward" = some domain.reward
  types : domain.types = (b.value? "types").getD (.list [])
  preconditions : domain.preconditions = (b.value? "preconds").getD (.list [])
  invariants : domain.invariants = (b.value? "invariants").getD (.list [])
  constraints : domain.constraints = (b.value? "constraints").getD (.list [])

variable {b : DomainBlock}

theorem require_sections (k : String) :
    (Table.ofList (b.sections.map fun s => (s.key, s.datum))).require k =
      match b.value? k with
      | some value => .ok value
      | none => .error (.missingKey k) := by
  rw [Table.require, Table.find?_ofList_lastWith?, DomainBlock.value?]
  cases lastWith? DomainSection.key k b.sections <;> rfl

theorem orEmpty_sections (k : String) :
    (Table.ofList (b.sections.map fun s => (s.key, s.datum))).orEmpty k =
      (b.value? k).getD (.list []) := by
  rw [Table.orEmpty, Table.find?_ofList_lastWith?]
  rfl

theorem lacking_cons_of_value?_none {k : String} {ks : List String} (h : b.value? k = none) :
    lacking DomainSection.key (k :: ks) b.sections =
      k :: lacking DomainSection.key ks b.sections :=
  lacking_cons_of_none (Option.map_eq_none_iff.mp h)

theorem lacking_cons_of_value?_some {k : String} {ks : List String} {value : Datum}
    (h : b.value? k = some value) :
    lacking DomainSection.key (k :: ks) b.sections = lacking DomainSection.key ks b.sections := by
  obtain ⟨s, hs, -⟩ := Option.map_eq_some_iff.mp h
  exact lacking_cons_of_some hs

/-- The first section that is lacking is the cause of the failure. -/
theorem ofBlock_of_lacks {key : String} {keys : List String} (h : b.lacks = key :: keys) :
    ofBlock b = .error (.missingKey key) := by
  rw [DomainBlock.lacks] at h
  simp only [ofBlock, ofSections, require_sections]
  -- the sections are asked for in the order of `b.lacks`
  cases hpvariables : b.value? "pvariables" with
  | none =>
    cases (lacking_cons_of_value?_none hpvariables).symm.trans h
    rfl
  | some pvariables =>
    rw [lacking_cons_of_value?_some hpvariables] at h
    cases hcpfs : b.value? "cpfs" with
    | none =>
      cases (lacking_cons_of_value?_none hcpfs).symm.trans h
      rfl
    | some cpfs =>
      rw [lacking_cons_of_value?_some hcpfs] at h
      cases hreward : b.value? "reward" with
      | none =>
        cases (lacking_cons_of_value?_none hreward).symm.trans h
        rfl
      | some reward =>
        rw [lacking_cons_of_value?_some hreward] at h
        cases h

theorem exists_value?_of_lacks {k : String} (h : b.lacks = [])
    (hk : k ∈ ["pvariables", "cpfs", "reward"]) : ∃ value, b.value? k = some value := by
  obtain ⟨s, hs⟩ := exists_lastWith?_of_lacking h hk
  exact ⟨s.datum, by rw [DomainBlock.value?, hs]; rfl⟩

/-- A block that lacks nothing has a domain. -/
theorem exists_isOf (h : b.lacks = []) : ∃ domain, ofBlock b = .ok domain ∧ domain.IsOf b := by
  obtain ⟨pvariables, hpvariables⟩ := exists_value?_of_lacks h (k := "pvariables") (by simp)
  obtain ⟨cpfs, hcpfs⟩ := exists_value?_of_lacks h (k := "cpfs") (by simp)
  obtain ⟨reward, hreward⟩ := exists_value?_of_lacks h (k := "reward") (by simp)
  simp only [ofBlock, ofSections, require_sections, orEmpty_sections, hpvariables, hcpfs, hreward]
  exact ⟨_, rfl, rfl, rfl, hpvariables, hcpfs, hreward, rfl, rfl, rfl, rfl⟩

end Domain

/-! ### Attributes -/

def NonFluentsBlock.value? (b : NonFluentsBlock) (key : String) : Option Datum :=
  (lastWith? NonFluentsSection.key key b.sections).map NonFluentsSection.datum

def InstanceBlock.value? (b : InstanceBlock) (key : String) : Option Datum :=
  (lastWith? InstanceSection.key key b.sections).map InstanceSection.datum

namespace Attributes

/-- The attributes of a non-fluents block: its name, its objects, of which it has none if
    they are not given, and its other sections. -/
structure IsNonFluentsOf (attributes : Attributes) (b : NonFluentsBlock) : Prop where
  name : attributes.find? "name" = some (.text b.name)
  objects : attributes.find? "objects" = some ((b.value? "objects").getD (.list []))
  others : ∀ key, key ≠ "name" → key ≠ "objects" → attributes.find? key = b.value? key

structure IsProblemOf (attributes : Attributes) (b : InstanceBlock) : Prop where
  name : attributes.find? "name" = some (.text b.name)
  others : ∀ key, key ≠ "name" → attributes.find? key = b.value? key

theorem nonFluents_isNonFluentsOf (b : NonFluentsBlock) :
    (nonFluents (.text b.name) (b.sections.map fun s => (s.key, s.datum))).IsNonFluentsOf b := by
  have hname : lastWith? NonFluentsSection.key "name" b.sections = none :=
    lastWith?_eq_none.mpr fun s _ => by cases s <;> simp [NonFluentsSection.key]
  refine ⟨?_, ?_, ?_⟩
  · rw [nonFluents, find?_extend_lastWith?, hname]
    rfl
  · rw [nonFluents, find?_extend_lastWith?, NonFluentsBlock.value?]
    cases lastWith? NonFluentsSection.key "objects" b.sections <;> rfl
  · intro key hne hne'
    rw [nonFluents, find?_extend_lastWith?]
    simp [Table.find?, Table.findEntry?, Ne.symm hne, Ne.symm hne', NonFluentsBlock.value?]

theorem problem_isProblemOf (b : InstanceBlock) :
    (problem (.text b.name) (b.sections.map fun s => (s.key, s.datum))).IsProblemOf b := by
  have hname : lastWith? InstanceSection.key "name" b.sections = none :=
    lastWith?_eq_none.mpr fun s _ => by cases s <;> simp [InstanceSection.key]
  refine ⟨?_, ?_⟩
  · rw [problem, find?_extend_lastWith?, hname]
    rfl
  · intro key hne
    rw [problem, find?_extend_lastWith?]
    simp [Table.find?, Table.findEntry?, Ne.symm hne, InstanceBlock.value?]

end Attributes

/-! ### Documents -/

/-- The kind of a block, by which a model holds it. -/
def Block.kind : Block → String
  | .domain _ => "domain"
  | .nonFluents _ => "non_fluents"
  | .problem _ => "instance"

/-- The sections that a block needs and does not have: only a domain needs any. -/
def Block.lacks : Block → List String
  | .domain b => b.lacks
  | _ => []

/-- A model holds what three blocks give. -/
structure Model.IsOf (m : Model) (b : DomainBlock) (n : NonFluentsBlock) (i : InstanceBlock) :
    Prop where
  domain : m.domain.IsOf b
  nonFluents : m.nonFluents.IsNonFluentsOf n
  problem : m.problem.IsProblemOf i

namespace Document

variable {d : Document}

def last? (d : Document) (kind : String) : Option Block := lastWith? Block.kind kind d

def lacks (d : Document) : List String :=
  lacking Block.kind ["domain", "non_fluents", "instance"] d

/-- No domain lacks a section that it needs. -/
def Complete (d : Document) : Prop := ∀ block ∈ d, block.lacks = []

instance : Decidable d.Complete := inferInstanceAs (Decidable (∀ block ∈ d, block.lacks = []))

/-- The first domain that lacks a section is the cause of the failure. -/
theorem domain?_of_lacks {before after : Document} {b : DomainBlock} {key : String}
    {keys : List String} (hbefore : before.Complete) (h : b.lacks = key :: keys) :
    domain? (before ++ .domain b :: after) = .error (.missingKey key) := by
  induction before with
  | nil =>
    rw [List.nil_append, domain?, Domain.ofBlock_of_lacks h]
    rfl
  | cons block before ih =>
    obtain ⟨hblock, hbefore⟩ := List.forall_mem_cons.mp hbefore
    have hrest := ih hbefore
    cases block with
    | domain first =>
      obtain ⟨domain, hdomain, -⟩ := Domain.exists_isOf hblock
      rw [List.cons_append, domain?, hdomain, hrest]
      rfl
    | nonFluents _ => exact hrest
    | problem _ => exact hrest

/-- In a complete document the last domain counts. -/
theorem domain?_of_complete (h : d.Complete) :
    (d.last? "domain" = none ∧ d.domain? = .ok none) ∨
      ∃ b domain, d.last? "domain" = some (.domain b) ∧ d.domain? = .ok (some domain) ∧
        domain.IsOf b := by
  induction d with
  | nil => exact .inl ⟨rfl, rfl⟩
  | cons block d ih =>
    obtain ⟨hblock, hd⟩ := List.forall_mem_cons.mp h
    have hrest := ih hd
    rw [last?] at hrest
    simp only [last?, lastWith?_cons]
    cases block with
    -- the first domain counts if there is no other behind it
    | domain first =>
      obtain ⟨domain, hdomain, hisOf⟩ := Domain.exists_isOf hblock
      right
      rcases hrest with ⟨hlast, hd⟩ | ⟨b, domain', hlast, hd, hisOf'⟩
      · refine ⟨first, domain, by simp [hlast, Block.kind], ?_, hisOf⟩
        rw [domain?, hdomain, hd]
        rfl
      · refine ⟨b, domain', by simp [hlast], ?_, hisOf'⟩
        rw [domain?, hdomain, hd]
        rfl
    | nonFluents _ => simpa [Block.kind, domain?] using hrest
    | problem _ => simpa [Block.kind, domain?] using hrest

/-- What is found first from the end is what the last block of a kind gives. -/
theorem findSome?_reverse_eq_bind_last? {α : Type} {f : Block → Option α} (kind : String)
    (h : ∀ block, (f block).isSome = (block.kind == kind)) (d : Document) :
    d.reverse.findSome? f = (d.last? kind).bind f := by
  rw [last?, lastWith?]
  induction d.reverse with
  | nil => rfl
  | cons block blocks ih =>
    rw [List.findSome?_cons, List.find?_cons, ← h block, ih]
    cases hblock : f block <;> simp [hblock]

/-- Either no block is of a kind, or the last one gives what is found first from the end. -/
theorem findSome?_reverse_cases {α : Type} {f : Block → Option α} (kind : String)
    (h : ∀ block, (f block).isSome = (block.kind == kind)) (d : Document) :
    (d.last? kind = none ∧ d.reverse.findSome? f = none) ∨
      ∃ block, block.kind = kind ∧ d.last? kind = some block ∧ d.reverse.findSome? f = f block := by
  rw [findSome?_reverse_eq_bind_last? kind h]
  cases hlast : d.last? kind with
  | none => exact .inl ⟨rfl, rfl⟩
  | some block => exact .inr ⟨block, key_of_lastWith? hlast, rfl, rfl⟩

theorem nonFluents?_cases (d : Document) :
    (d.last? "non_fluents" = none ∧ d.nonFluents? = none) ∨
      ∃ n attributes, d.last? "non_fluents" = some (.nonFluents n) ∧
        d.nonFluents? = some attributes ∧ attributes.IsNonFluentsOf n := by
  refine (findSome?_reverse_cases "non_fluents" (fun block => ?_) d).imp_right ?_
  · cases block <;> simp [Block.kind]
  · rintro ⟨block, hkind, hlast, hfound⟩
    cases block with
    | nonFluents n => exact ⟨n, _, hlast, hfound, Attributes.nonFluents_isNonFluentsOf n⟩
    | _ => simp [Block.kind] at hkind

theorem problem?_cases (d : Document) :
    (d.last? "instance" = none ∧ d.problem? = none) ∨
      ∃ i attributes, d.last? "instance" = some (.problem i) ∧
        d.problem? = some attributes ∧ attributes.IsProblemOf i := by
  refine (findSome?_reverse_cases "instance" (fun block => ?_) d).imp_right ?_
  · cases block <;> simp [Block.kind]
  · rintro ⟨block, hkind, hlast, hfound⟩
    cases block with
    | problem i => exact ⟨i, _, hlast, hfound, Attributes.problem_isProblemOf i⟩
    | _ => simp [Block.kind] at hkind

/-- In a complete document the first kind of block that is lacking is the cause of the
    failure. -/
theorem model_of_lacks {kind : String} {kinds : List String} (hcomplete : d.Complete)
    (h : d.lacks = kind :: kinds) : d.model = .error (.missingKey kind) := by
  rw [lacks] at h
  rw [model]
  -- the blocks are asked for in the order of `d.lacks`
  rcases domain?_of_complete hcomplete with ⟨hlast, hdomain⟩ | ⟨b, domain, hlast, hdomain, -⟩
  · cases (lacking_cons_of_none hlast).symm.trans h
    rw [hdomain]
    rfl
  rw [lacking_cons_of_some hlast] at h
  rcases nonFluents?_cases d with ⟨hlast, hnonFluents⟩ | ⟨n, nonFluents, hlast, hnonFluents, -⟩
  · cases (lacking_cons_of_none hlast).symm.trans h
    rw [hdomain, hnonFluents]
    rfl
  rw [lacking_cons_of_some hlast] at h
  rcases problem?_cases d with ⟨hlast, hproblem⟩ | ⟨i, problem, hlast, -, -⟩
  · cases (lacking_cons_of_none hlast).symm.trans h
    rw [hdomain, hnonFluents, hproblem]
    rfl
  · rw [lacking_cons_of_some hlast] at h
    cases h

/-- A complete document that lacks nothing has a model. -/
theorem exists_isOf (hcomplete : d.Complete) (h : d.lacks = []) :
    ∃ m b n i, d.model = .ok m ∧ d.last? "domain" = some (.domain b) ∧
      d.last? "non_fluents" = some (.nonFluents n) ∧ d.last? "instance" = some (.problem i) ∧
      m.IsOf b n i := by
  have hlast : ∀ kind ∈ ["domain", "non_fluents", "instance"], d.last? kind ≠ none := by
    intro kind hkind hnone
    obtain ⟨block, hblock⟩ := exists_lastWith?_of_lacking h hkind
    exact absurd hnone (by rw [last?, hblock]; simp)
  rcases domain?_of_complete hcomplete with ⟨hnone, -⟩ | ⟨b, domain, hb, hdomain, hisOf⟩
  · exact absurd hnone (hlast _ (by simp))
  rcases nonFluents?_cases d with ⟨hnone, -⟩ | ⟨n, nonFluents, hn, hnonFluents, hisNonFluents⟩
  · exact absurd hnone (hlast _ (by simp))
  rcases problem?_cases d with ⟨hnone, -⟩ | ⟨i, problem, hi, hproblem, hisProblem⟩
  · exact absurd hnone (hlast _ (by simp))
  refine ⟨⟨domain, nonFluents, problem⟩, b, n, i, ?_, hb, hn, hi, hisOf, hisNonFluents, hisProblem⟩
  rw [model, hdomain, hnonFluents, hproblem]
  rfl

/-- A document is complete, or there is a first domain in it that lacks a section. -/
theorem complete_or_exists_lacks (d : Document) :
    d.Complete ∨ ∃ before b after key keys, d = before ++ .domain b :: after ∧
      Complete before ∧ b.lacks = key :: keys := by
  induction d with
  | nil =>
    left
    intro block hblock
    cases hblock
  | cons block d ih =>
    cases hlacks : block.lacks with
    -- this block is complete; is one behind it incomplete?
    | nil =>
      rcases ih with hd | ⟨before, b, after, key, keys, rfl, hbefore, hb⟩
      · exact .inl (List.forall_mem_cons.mpr ⟨hlacks, hd⟩)
      · exact .inr ⟨block :: before, b, after, key, keys, rfl,
          List.forall_mem_cons.mpr ⟨hlacks, hbefore⟩, hb⟩
    -- this block is the first that lacks a section, and so it is a domain
    | cons key keys =>
      right
      cases block with
      | domain b => exact ⟨[], b, d, key, keys, rfl, by decide, hlacks⟩
      | nonFluents _ => cases hlacks
      | problem _ => cases hlacks

/-- A model holds what the last block of each kind gives. -/
theorem isOf_of_model {m : Model} (h : d.model = .ok m) :
    ∃ b n i, d.last? "domain" = some (.domain b) ∧ d.last? "non_fluents" = some (.nonFluents n) ∧
      d.last? "instance" = some (.problem i) ∧ m.IsOf b n i := by
  rcases complete_or_exists_lacks d with hcomplete | ⟨before, b, after, key, keys, rfl, hbefore, hb⟩
  · cases hlacks : d.lacks with
    | nil =>
      obtain ⟨m', b, n, i, hmodel, hblocks⟩ := exists_isOf hcomplete hlacks
      cases hmodel.symm.trans h
      exact ⟨b, n, i, hblocks⟩
    | cons kind kinds => cases (model_of_lacks hcomplete hlacks).symm.trans h
  · rw [model, domain?_of_lacks hbefore hb] at h
    cases h

end Document

/-! ### Readings of a scan -/

def Verdict.ofResult : Except Fault Model → Verdict
  | .ok m => .model m
  | .error cause => .fault cause

/-- A scan spells a document: its lexemes are written so, with every operand in the place
    that precedence gives it, and there is nothing in it that cannot be scanned. -/
structure Document.IsSpelledBy (d : Document) (scan : Scan) : Prop where
  written : d.Written scan.lexemes
  wellShaped : d.isWellShaped = true
  sound : scan.fault? = none

theorem Document.isSpelledBy_of_eq {d : Document} {ls : List Lexeme} {scan : Scan}
    (hwritten : d.Written ls) (hshape : d.isWellShaped = true)
    (hscan : scan.lexemes = ls ∧ scan.fault? = none) : d.IsSpelledBy scan :=
  ⟨hscan.1 ▸ hwritten, hshape, hscan.2⟩

namespace Reading

/-- What the reader makes of all lexemes ahead comes of the reading, which ends with this start,
    and no syntax error is reported on the way. -/
theorem run_of_runs {c : Cursor} {ls : List Lexeme} {x : Except Fault Model} (n : Nat)
    (hfaces : c.Faces ls) (h : Reader.Runs Reader.model ls [] x) :
    ∃ c', run (n + 1) c = endingAt c' (.ofResult x) ∧
      ∃ new, c'.log = new ++ c.log ∧ ∀ message ∈ new, message.isError = false := by
  rw [← List.append_nil ls] at hfaces
  cases x with
  | ok m =>
    obtain ⟨c', hrun, -⟩ := h c hfaces
    refine ⟨c', ?_, (Reader.model_scripted.passes_of_ok hrun).log⟩
    simp only [run, hrun, Verdict.ofResult]
  | error cause =>
    obtain ⟨c', hrun⟩ := h c hfaces
    refine ⟨c', ?_, (Reader.model_scripted.passes_of_error hrun).log⟩
    simp only [run, hrun, Verdict.ofResult]

/-- What the reader makes of all lexemes of a sound scan comes of the reading, and no syntax
    error is reported. -/
theorem verdict_of_runs {scan : Scan} {x : Except Fault Model} (hfault : scan.fault? = none)
    (h : Reader.Runs Reader.model scan.lexemes [] x) :
    (ofScan scan).verdict = .ofResult x ∧ (ofScan scan).Clean := by
  obtain ⟨c, henter, hfaces⟩ := Cursor.faces_of_enter hfault [] 0 ⟨scan, [], 0⟩
  obtain ⟨c', hrun, new, hlog, hnew⟩ := run_of_runs scan.size hfaces h
  have hread : ofScan scan = endingAt c' (.ofResult x) := by
    simp only [ofScan, henter, hrun]
  obtain ⟨-, rfl⟩ := Reader.enter_eq_ok.mp henter
  rw [hread]
  refine ⟨rfl, ?_⟩
  intro message hmem
  simp only [endingAt, List.mem_reverse, hlog, List.append_nil, List.mem_append] at hmem
  rcases hmem with hmem | hmem
  · exact hnew message hmem
  · exact Scan.isError_of_mem_skipped hmem

theorem verdict_of_spelled {d : Document} {scan : Scan} (h : d.IsSpelledBy scan) :
    (ofScan scan).verdict = .ofResult d.model ∧ (ofScan scan).Clean :=
  verdict_of_runs h.sound (Reader.model_runs h.written h.wellShaped)

/-- **What comes of a document.**  A text that spells a document is read without a syntax
    error.  If a domain of it lacks a section that it needs, the reading fails with the
    first such section of the first such domain.  Otherwise it fails with the first kind
    of block that is lacking.  Otherwise it has the model of the last block of each kind.
    And a model that is read without a syntax error is read from such a text. -/
theorem outcome_of_spelled (line : Nat) (text : String) :
    (∀ d : Document, d.IsSpelledBy (Scan.ofText line text) →
      (ofText line text).Clean ∧
      (∀ before b after key keys, d = before ++ .domain b :: after →
        Document.Complete before → b.lacks = key :: keys →
          (ofText line text).verdict = .fault (.missingKey key)) ∧
      (d.Complete → ∀ kind kinds, d.lacks = kind :: kinds →
        (ofText line text).verdict = .fault (.missingKey kind)) ∧
      (d.Complete → d.lacks = [] → ∃ m b n i, (ofText line text).verdict = .model m ∧
        d.last? "domain" = some (.domain b) ∧ d.last? "non_fluents" = some (.nonFluents n) ∧
        d.last? "instance" = some (.problem i) ∧ m.IsOf b n i)) ∧
    ∀ m, (ofText line text).verdict = .model m → (ofText line text).Clean →
      ∃ d : Document, d.IsSpelledBy (Scan.ofText line text) := by
  constructor
  · intro d hspelled
    obtain ⟨hverdict, hclean⟩ := verdict_of_spelled hspelled
    rw [ofText]
    refine ⟨hclean, ?_, ?_, ?_⟩
    · -- a domain that lacks a section
      rintro before b after key keys rfl hbefore hlacks
      rw [hverdict, Document.model, Document.domain?_of_lacks hbefore hlacks]
      rfl
    · -- a kind of block that is not there
      intro hcomplete kind kinds hlacks
      rw [hverdict, Document.model_of_lacks hcomplete hlacks]
      rfl
    · -- nothing is missing
      intro hcomplete hlacks
      obtain ⟨m, b, n, i, hmodel, hblocks⟩ := Document.exists_isOf hcomplete hlacks
      exact ⟨m, b, n, i, by rw [hverdict, hmodel]; rfl, hblocks⟩
  · intro m hm hclean
    obtain ⟨d, hwritten, hshape, -, hfault⟩ := exists_wellShaped_of_clean hm hclean
    exact ⟨d, hwritten, hshape, hfault⟩

end Reading

/-- A text with three domains, of which the second lacks its functions and the third
    everything. -/
def unfinishedText : String := "domain a \x7b pvariables \x7b \x7d; cpfs \x7b \x7d; reward = 1; \x7d
  domain b \x7b reward = 0; pvariables \x7b \x7d; \x7d
  domain c \x7b \x7d"

def unfinishedDocument : Document :=
  [.domain ⟨"a", none, [.pvariables [], .cpfs .cpfs [], .reward (.integer 1)]⟩,
    .domain ⟨"b", none, [.reward (.integer 0), .pvariables []]⟩,
    .domain ⟨"c", none, []⟩]

theorem unfinishedDocument_spelled :
    unfinishedDocument.IsSpelledBy (Scan.ofText 1 unfinishedText) := by
  have hwritten : Items Block.Written unfinishedDocument _ :=
    .cons (.domain "a" .none (.cons (.pvariables .nil) (.cons (.cpfs .nil)
        (.cons (.reward (.integer 1)) .nil))))
      (.cons (.domain "b" .none (.cons (.reward (.integer 0)) (.cons (.pvariables .nil) .nil)))
        (.cons (.domain "c" .none .nil) .nil))
  rw [unfinishedText, Reading.scan_eq_walk 1 rfl]
  exact Document.isSpelledBy_of_eq hwritten (by decide) (by decide +kernel)

def unpairedText : String :=
  "instance i \x7b \x7d domain a \x7b pvariables \x7b \x7d; cdfs \x7b \x7d; reward = 1; \x7d"

def unpairedDocument : Document :=
  [.problem ⟨"i", []⟩, .domain ⟨"a", none, [.pvariables [], .cpfs .cdfs [], .reward (.integer 1)]⟩]

theorem unpairedDocument_spelled :
    unpairedDocument.IsSpelledBy (Scan.ofText 1 unpairedText) := by
  have hwritten : Items Block.Written unpairedDocument _ :=
    .cons (.problem "i" .nil) (.cons (.domain "a" .none (.cons (.pvariables .nil)
      (.cons (.cdfs .nil) (.cons (.reward (.integer 1)) .nil)))) .nil)
  rw [unpairedText, Reading.scan_eq_walk 1 rfl]
  exact Document.isSpelledBy_of_eq hwritten (by decide) (by decide +kernel)

def repeatedText : String := "instance i \x7b horizon = 3; horizon = 4; \x7d
  domain a \x7b pvariables \x7b \x7d; cpfs \x7b \x7d; reward = 1; \x7d
  non-fluents n \x7b domain = a; \x7d
  domain b \x7b reward = 1; types \x7b t : object; \x7d;
    pvariables \x7b \x7d; cpfs \x7b \x7d; reward = 2; \x7d
  non-fluents m \x7b \x7d"

def repeatedDocument : Document :=
  [.problem ⟨"i", [.horizon (.steps (.finite 3)), .horizon (.steps (.finite 4))]⟩,
    .domain ⟨"a", none, [.pvariables [], .cpfs .cpfs [], .reward (.integer 1)]⟩,
    .nonFluents ⟨"n", [.domain "a"]⟩,
    .domain ⟨"b", none, [.reward (.integer 1), .types [⟨"t", .objects⟩], .pvariables [],
      .cpfs .cpfs [], .reward (.integer 2)]⟩,
    .nonFluents ⟨"m", []⟩]

theorem repeatedDocument_spelled :
    repeatedDocument.IsSpelledBy (Scan.ofText 1 repeatedText) := by
  have hwritten : Items Block.Written repeatedDocument _ :=
    .cons (.problem "i" (.cons (.horizon (.steps (.finite 3)))
        (.cons (.horizon (.steps (.finite 4))) .nil)))
      (.cons (.domain "a" .none (.cons (.pvariables .nil) (.cons (.cpfs .nil)
        (.cons (.reward (.integer 1)) .nil))))
      (.cons (.nonFluents "n" (.cons (.domain "a") .nil))
      (.cons (.domain "b" .none (.cons (.reward (.integer 1))
        (.cons (.types (.cons (.objects "t") .nil)) (.cons (.pvariables .nil)
          (.cons (.cpfs .nil) (.cons (.reward (.integer 2)) .nil))))))
      (.cons (.nonFluents "m" .nil) .nil))))
  rw [repeatedText, Reading.scan_eq_walk 1 rfl]
  exact Document.isSpelledBy_of_eq hwritten (by decide) (by decide +kernel)

theorem Reading.outcome_of_sampleTexts :
    (unfinishedDocument.IsSpelledBy (Scan.ofText 1 unfinishedText) ∧
      (ofText 1 unfinishedText).verdict = .fault (.missingKey "cpfs")) ∧
    (unpairedDocument.IsSpelledBy (Scan.ofText 1 unpairedText) ∧
      (ofText 1 unpairedText).verdict = .fault (.missingKey "non_fluents")) ∧
    repeatedDocument.IsSpelledBy (Scan.ofText 1 repeatedText) ∧
      (ofText 1 repeatedText).Clean ∧ ∃ m, (ofText 1 repeatedText).verdict = .model m ∧
        m.domain.name = .text "b" ∧ m.domain.reward = Expr.datum (.integer 2) ∧
        m.domain.constraints = .list [] ∧ m.nonFluents.find? "objects" = some (.list []) ∧
        m.problem.find? "horizon" = some (.integer 4) := by
  refine ⟨⟨unfinishedDocument_spelled, ?_⟩, ⟨unpairedDocument_spelled, ?_⟩,
    repeatedDocument_spelled, ?_⟩
  · obtain ⟨-, hlacks, -⟩ := (outcome_of_spelled 1 unfinishedText).1 _ unfinishedDocument_spelled
    exact hlacks [_] _ [_] "cpfs" [] rfl (by decide) (by decide)
  · obtain ⟨-, -, hlacks, -⟩ := (outcome_of_spelled 1 unpairedText).1 _ unpairedDocument_spelled
    exact hlacks (by decide) "non_fluents" [] (by decide)
  · obtain ⟨hclean, -, -, hmodel⟩ :=
      (outcome_of_spelled 1 repeatedText).1 _ repeatedDocument_spelled
    obtain ⟨m, b, n, i, hverdict, hb, hn, hi, hisOf⟩ := hmodel (by decide) (by decide)
    cases hb
    cases hn
    cases hi
    refine ⟨hclean, m, hverdict, hisOf.domain.name, ?_, hisOf.domain.constraints,
      hisOf.nonFluents.objects, hisOf.problem.others "horizon" (by decide)⟩
    exact (Option.some.inj hisOf.domain.reward).symm

end Rddl
