/-
  Rddl/Proofs/Model/EmptyObjects.lean
  ===================================
  **A section without objects.**

  An objects section with nothing in it can be cut out of a text, and what is left is read
  like the whole (`Document.exists_text_without`).  But it is not the same as no section: it
  stands for a list with an absent entry, and not for an empty list.  So the two models
  build alike only if they never come to the objects because the domain cannot be built;
  otherwise the one with the section fails there (`Model.build_of_emptyObjects`).
-/
import Rddl.Proofs.Model.Builds
import Rddl.Proofs.Outcome
import Rddl.Proofs.Scan.Cuts

namespace Rddl

/-! ### The section in a text -/

def emptyObjects : List Lexeme := .keyword .objects :: inBraces []

theorem NonFluentsSection.getLast?_of_written {s : NonFluentsSection} {ls : List Lexeme}
    (h : s.Written ls) : ls.getLast? = some (.symbol .semicolon) := by
  cases h <;> simp [inBraces, List.getLast?_cons]

/-- Sections end with a semicolon, and before the first one stands a bracket. -/
theorem exists_stop_of_sections {sections : List NonFluentsSection} {ls : List Lexeme}
    (h : Items NonFluentsSection.Written sections ls) :
    ∃ init s b, Symbol.Stops s b ∧ .symbol .leftCurly :: ls = init ++ [.symbol s] := by
  rcases List.eq_nil_or_concat sections with rfl | ⟨sections, last, rfl⟩
  · cases h
    exact ⟨[], _, _, Symbol.stops_leftCurly, rfl⟩
  · rw [List.concat_eq_append] at h
    obtain ⟨l, _, rfl, -, hlast⟩ := h.exists_append
    cases hlast with
    | cons hlast hnil =>
      cases hnil
      obtain ⟨init, rfl⟩ := List.getLast?_eq_some_iff.mp
        (NonFluentsSection.getLast?_of_written hlast)
      exact ⟨.symbol .leftCurly :: (l ++ init), _, _, Symbol.stops_semicolon, by simp⟩

namespace Document

section Without

variable {before after : Document} {name : String} {s₁ s₂ : List NonFluentsSection}

/-- The lexemes of the section stand behind a symbol that ends what is before it, and without
    them the rest of the document is still written. -/
theorem exists_written_without {ls : List Lexeme}
    (h : Document.Written (before ++ .nonFluents ⟨name, s₁ ++ .objects [] :: s₂⟩ :: after) ls) :
    ∃ init s b rest, Symbol.Stops s b ∧ ls = init ++ .symbol s :: (emptyObjects ++ rest) ∧
      Document.Written (before ++ .nonFluents ⟨name, s₁ ++ s₂⟩ :: after)
        (init ++ .symbol s :: rest) := by
  obtain ⟨l, _, rfl, hbefore, hblock⟩ := Items.exists_append h
  cases hblock with
  | @cons _ _ _ l' hblock hafter =>
    cases hblock with
    | nonFluents _ hsections =>
      obtain ⟨l₁, _, rfl, h₁, hrest⟩ := Items.exists_append hsections
      cases hrest with
      | @cons _ _ _ l₂ hobjects h₂ =>
        cases hobjects with
        | objects hnone =>
          cases hnone
          obtain ⟨init, s, b, hb, hstop⟩ := exists_stop_of_sections h₁
          -- the cut has to be seen between two lexemes, the first of which is a symbol
          have hlayout : ∀ ls, l ++ (.keyword .nonFluents :: .ident name :: .symbol .leftCurly ::
              (l₁ ++ ls ++ [.symbol .rightCurly]) ++ l') =
              (l ++ .keyword .nonFluents :: .ident name :: init) ++
                .symbol s :: (ls ++ ([.symbol .rightCurly] ++ l')) := by
            intro ls
            have hls := congrArg (· ++ (ls ++ ([.symbol .rightCurly] ++ l'))) hstop
            simpa using hls
          have hwritten : Document.Written (before ++ .nonFluents ⟨name, s₁ ++ s₂⟩ :: after) _ :=
            hbefore.append (.cons (.nonFluents name (h₁.append h₂)) hafter)
          rw [hlayout] at hwritten
          exact ⟨_, s, b, _, hb, by rw [hlayout]; rfl, hwritten⟩

theorem isWellShaped_without {n n' : NonFluentsBlock}
    (h : isWellShaped (before ++ .nonFluents n :: after) = true) :
    isWellShaped (before ++ .nonFluents n' :: after) = true := by
  simpa [isWellShaped, Block.expressions] using h

/-- **An objects section with nothing in it can be cut out of a text.** -/
theorem exists_text_without {line : Nat} {text : String}
    (h : IsSpelledBy (before ++ .nonFluents ⟨name, s₁ ++ .objects [] :: s₂⟩ :: after)
      (Scan.ofText line text)) :
    ∃ u w v : String, text = u ++ ("objects" ++ w ++ ";") ++ v ∧
      (Scan.ofText 1 ("objects" ++ w ++ ";")).lexemes = emptyObjects ∧
      IsSpelledBy (before ++ .nonFluents ⟨name, s₁ ++ s₂⟩ :: after)
        (Scan.ofText line (u ++ v)) := by
  obtain ⟨init, s, b, rest, hb, hls, hwritten⟩ := exists_written_without h.written
  have hcut : (Scan.walk 0 line 0 text.toList).lexemes = init ++ .symbol s :: .keyword .objects ::
      ([.symbol .leftCurly, .symbol .rightCurly] ++ .symbol .semicolon :: rest) := hls
  obtain ⟨u, w, v, hcs, hu, hw⟩ := Scan.exists_cut hb Symbol.stops_semicolon hcut
  -- behind the section the whole text and the one without it go on alike
  have hwhole := hu.append hw
  rw [hcs] at hcut
  have hafter : (Scan.walk 0 0 0 v).lexemes = rest :=
    hwhole.lexemes_of_append (hcut.trans (by simp))
  have hleads := hwhole v line 0 0 0
  rw [← hcs] at hleads
  have hcut' : Scan.ofText line (.ofList u ++ .ofList v) = .walk 0 line 0 (u ++ v) := by
    rw [Scan.ofText, String.toList_append, String.toList_ofList, String.toList_ofList]
  have hleads' := hu v line 0 0 0
  rw [← hcut'] at hleads'
  refine ⟨.ofList u, .ofList w, .ofList v, ?_, ?_, ⟨?_, ?_, ?_⟩⟩
  · refine String.toList_inj.mp ?_
    simp only [String.toList_append, String.toList_ofList, hcs]
    rfl
  · have hsection := (hw [] 1 0 0 0).lexemes
    rw [List.append_nil] at hsection
    simp only [Scan.ofText, String.toList_append, String.toList_ofList]
    exact hsection
  · rw [hleads'.lexemes, hafter, List.append_assoc]
    exact hwritten
  · exact isWellShaped_without h.wellShaped
  · rw [hleads'.fault, ← hleads.fault]
    exact h.sound

end Without

/-! ### The section in a model -/

theorem domain?_congr (before after : Document) (n n' : NonFluentsBlock) :
    domain? (before ++ .nonFluents n :: after) = domain? (before ++ .nonFluents n' :: after) := by
  induction before with
  | nil => rfl
  | cons block before ih =>
    cases block with
    | domain b => simp only [List.cons_append, domain?, ih]
    | nonFluents _ => exact ih
    | problem _ => exact ih

theorem problem?_congr (before after : Document) (n n' : NonFluentsBlock) :
    problem? (before ++ .nonFluents n :: after) = problem? (before ++ .nonFluents n' :: after) := by
  simp [problem?, List.findSome?_append]

/-- A non-fluents block counts if there is none behind it. -/
theorem nonFluents?_append (before after : Document) (n : NonFluentsBlock) :
    nonFluents? (before ++ .nonFluents n :: after) = some ((nonFluents? after).getD
      (.nonFluents (.text n.name) (n.sections.map fun s => (s.key, s.datum)))) := by
  simp only [nonFluents?, List.reverse_append, List.reverse_cons, List.append_assoc,
    List.findSome?_append, List.singleton_append, List.findSome?_cons]
  cases after.reverse.findSome? _ <;> rfl

theorem nonFluents?_eq_none_iff {d : Document} :
    d.nonFluents? = none ↔ ∀ n, .nonFluents n ∉ d := by
  rw [nonFluents?, List.findSome?_eq_none_iff]
  constructor
  · intro h n hn
    have hnone := h (.nonFluents n) (List.mem_reverse.mpr hn)
    cases hnone
  · intro h block hblock
    cases block with
    | nonFluents n => exact absurd (List.mem_reverse.mp hblock) (h n)
    | _ => rfl

/-- With another non-fluents block the reading fails alike, or it gives a model that
    differs in the attributes of that block only. -/
theorem model_congr (before after : Document) (n n' : NonFluentsBlock) :
    (∃ cause, model (before ++ .nonFluents n :: after) = .error cause ∧
      model (before ++ .nonFluents n' :: after) = .error cause) ∨
    ∃ domain problem,
      model (before ++ .nonFluents n :: after) = .ok ⟨domain, (nonFluents? after).getD
        (.nonFluents (.text n.name) (n.sections.map fun s => (s.key, s.datum))), problem⟩ ∧
      model (before ++ .nonFluents n' :: after) = .ok ⟨domain, (nonFluents? after).getD
        (.nonFluents (.text n'.name) (n'.sections.map fun s => (s.key, s.datum))), problem⟩ := by
  rw [model, model, domain?_congr before after n' n, problem?_congr before after n' n,
    nonFluents?_append, nonFluents?_append]
  cases domain? (before ++ .nonFluents n :: after) with
  | error cause => exact .inl ⟨cause, rfl, rfl⟩
  | ok domain? =>
    cases domain? with
    | none => exact .inl ⟨_, rfl, rfl⟩
    | some domain =>
      cases problem? (before ++ .nonFluents n :: after) with
      | none => exact .inl ⟨_, rfl, rfl⟩
      | some problem => exact .inr ⟨domain, problem, rfl, rfl⟩

end Document

section Sections

variable {name : String} {s₁ s₂ : List NonFluentsSection}

theorem NonFluentsBlock.value?_insert {s : NonFluentsSection} {key : String} (h : s.key ≠ key) :
    (⟨name, s₁ ++ s :: s₂⟩ : NonFluentsBlock).value? key =
      (⟨name, s₁ ++ s₂⟩ : NonFluentsBlock).value? key := by
  simp [value?, lastWith?, List.find?_append, h]

theorem NonFluentsBlock.value?_last {s : NonFluentsSection} (h : ∀ s' ∈ s₂, s'.key ≠ s.key) :
    (⟨name, s₁ ++ s :: s₂⟩ : NonFluentsBlock).value? s.key = some s.datum := by
  have hnone : s₂.reverse.find? (fun s' => s'.key == s.key) = none :=
    lastWith?_eq_none.mpr h
  simp [value?, lastWith?, List.find?_append, hnone]

end Sections

namespace Model

/-- Two models that differ in their objects only: one of them holds an absent entry, the
    other nothing. -/
structure ObjectsApart (m m' : Model) : Prop where
  domain : m'.domain = m.domain
  problem : m'.problem = m.problem
  others : ∀ key, key ≠ "objects" → m'.nonFluents.find? key = m.nonFluents.find? key
  absent : m.nonFluents.find? "objects" = some (.list [.absent])
  empty : m'.nonFluents.find? "objects" = some (.list [])

theorem objectsApart_of_sections (domain : Domain) (problem : Attributes) (name : String)
    {s₁ s₂ : List NonFluentsSection} (honly : ∀ s ∈ s₁ ++ s₂, s.key ≠ "objects") :
    ObjectsApart
      ⟨domain, .nonFluents (.text name) ((s₁ ++ .objects [] :: s₂).map fun s => (s.key, s.datum)),
        problem⟩
      ⟨domain, .nonFluents (.text name) ((s₁ ++ s₂).map fun s => (s.key, s.datum)), problem⟩ := by
  have hwith := Attributes.nonFluents_isNonFluentsOf ⟨name, s₁ ++ .objects [] :: s₂⟩
  have hwithout := Attributes.nonFluents_isNonFluentsOf ⟨name, s₁ ++ s₂⟩
  -- the empty section is the last one for its key, and without it there is none
  have hlast : (⟨name, s₁ ++ .objects [] :: s₂⟩ : NonFluentsBlock).value? "objects" =
      some (.list [.absent]) :=
    NonFluentsBlock.value?_last fun s hs => honly s (List.mem_append_right s₁ hs)
  have hnone : (⟨name, s₁ ++ s₂⟩ : NonFluentsBlock).value? "objects" = none := by
    rw [NonFluentsBlock.value?, lastWith?_eq_none.mpr honly]
    rfl
  refine ⟨rfl, rfl, fun key hkey => ?_, ?_, ?_⟩
  · -- the name and the other sections are the same
    by_cases hname : key = "name"
    · subst hname
      exact hwithout.name.trans hwith.name.symm
    · rw [hwithout.others key hname hkey, hwith.others key hname hkey]
      exact (NonFluentsBlock.value?_insert (Ne.symm hkey)).symm
  · rw [hwith.objects, hlast]
    rfl
  · rw [hwithout.objects, hnone]
    rfl

end Model

/-! ### Building with the section and without it -/

open Build

/-- The cause of a failure, if a step fails, and the tables that it leaves. -/
def Build.outcome (x : Build Unit) (t : Tables) : Option Fault × Tables :=
  match x t with
  | .ok _ t' => (none, t')
  | .error cause t' => (some cause, t')

namespace Model

variable {m m' : Model} {t u : Tables}

theorem buildObjects_of_absent (h : m.nonFluents.find? "objects" = some (.list [.absent]))
    (t : Tables) : m.buildObjects t = .error .wrongShape t := by
  have hlisted : m.listedObjects = .error .wrongShape := by
    rw [listedObjects, h]
    rfl
  rw [buildObjects, hlisted]
  rfl

theorem placeObjects_keeps_isSome (listed : Table Key Datum) (decl : Datum) :
    Keeps (fun t => t.objects?.isSome = true) (placeObjects listed decl) := by
  refine .bind (.lift _) fun pair => ?_
  obtain ⟨type, body⟩ := pair
  dsimp only
  split
  · exact .bind (.lift _) fun key => .bind (.lift _) fun entry => .modify fun _ _ => rfl
  · exact .pure ()

/-- Where the objects are an empty list there is an object table, whatever fails behind. -/
theorem isSome_objects_of_empty (h : m.nonFluents.find? "objects" = some (.list [])) :
    Ensures (fun _ => True) (m.buildObjects >>= fun _ => m.buildFluents)
      (fun _ t => t.objects?.isSome = true) (fun t => t.objects?.isSome = true) := by
  have hlisted : m.listedObjects = .ok (.ofList []) := by
    rw [listedObjects, h]
    rfl
  refine .bind (Q := fun _ t => t.objects?.isSome = true) ?_ fun _ =>
    buildFluents_keeps_others (fun _ _ ht => ht) m
  rw [buildObjects, hlisted, lift_ok_bind]
  refine .bind (Q := fun _ t => t.objects?.isSome = true) (.modify fun _ _ => rfl) fun _ => ?_
  exact Keeps.bind (.lift _) fun types => .forM (placeObjects_keeps_isSome _)

variable (h : m.ObjectsApart m')
include h

/-- Where the domain cannot be built both models fail with it. -/
theorem ObjectsApart.build_of_error {cause : Fault} (hdomain : m.domain.build t = .error cause u) :
    m.build t = .error cause u ∧ m'.build t = .error cause u := by
  refine ⟨bind_of_error hdomain, bind_of_error ?_⟩
  rw [h.domain]
  exact hdomain

/-- Where the domain is built the model with an absent entry fails behind it, with the tables
    of objects and fluents that it had, while the other one has a table of objects. -/
theorem ObjectsApart.build_of_ok (hdomain : m.domain.build t = .ok () u) :
    m.build t = .error .wrongShape u ∧ u.objects? = t.objects? ∧ u.fluents? = t.fluents? ∧
      (m'.build.outcome t).2.objects?.isSome = true := by
  have hkept : Keeps (fun u => u.objects? = t.objects? ∧ u.fluents? = t.fluents?) m.domain.build :=
    Domain.build_keeps (fun _ _ ho hf hu => ⟨ho.trans hu.1, hf.trans hu.2⟩) m.domain
  have hsame : u.objects? = t.objects? ∧ u.fluents? = t.fluents? := hkept.of_ok ⟨rfl, rfl⟩ hdomain
  have hfails : m.build t = .error .wrongShape u := by
    rw [build, bind_of_ok hdomain, bind_of_error (buildObjects_of_absent h.absent u)]
  refine ⟨hfails, hsame.1, hsame.2, ?_⟩
  rw [outcome, build, h.domain, bind_of_ok hdomain]
  rcases isSome_objects_of_empty h.empty u trivial with ⟨_, _, hrun, hsome⟩ | ⟨_, _, hrun, hsome⟩
  · rw [hrun]
    exact hsome
  · rw [hrun]
    exact hsome

/-- From tables without objects the two models come to the same only where the domain cannot be
    built. -/
theorem ObjectsApart.same_iff (ht : t.objects? = none) :
    ((m.build.outcome t).1 = (m'.build.outcome t).1 ∧
      (m.build.outcome t).2.objects? = (m'.build.outcome t).2.objects? ∧
      (m.build.outcome t).2.fluents? = (m'.build.outcome t).2.fluents?) ↔
    ∃ cause u, m.domain.build t = .error cause u := by
  cases hdomain : m.domain.build t with
  | error cause u =>
    obtain ⟨hbuild, hbuild'⟩ := h.build_of_error hdomain
    refine iff_of_true ?_ ⟨cause, u, rfl⟩
    simp only [outcome, hbuild, hbuild', and_self]
  | ok _ u =>
    obtain ⟨hbuild, hobjects, -, hsome⟩ := h.build_of_ok hdomain
    refine iff_of_false ?_ (by simp)
    rintro ⟨-, hsame, -⟩
    rw [← hsame, outcome, hbuild, hobjects, ht] at hsome
    cases hsome

end Model

/-- **A section without objects is not the same as no section.**  Take a text that spells a
    document with a non-fluents block whose only objects section has nothing in it.  That
    section can be cut out of the text, and what is left spells the document without it.  Both
    are read without a syntax error, and both readings fail for one cause or have models.  If
    there is another non-fluents block behind, the models are equal.  If not, they differ in
    their objects, where one holds an absent entry.  Where the domain cannot be built, both
    models fail with it.  Otherwise the one with the section fails at its objects and leaves
    the tables of objects and fluents as they were, while the other one sets a table of
    objects.  So a first build has the same outcome and the same tables of objects and
    fluents if and only if the domain cannot be built. -/
theorem Model.build_of_emptyObjects {line : Nat} {text : String} {before after : Document}
    {name : String} {s₁ s₂ : List NonFluentsSection}
    (hspelled : Document.IsSpelledBy
      (before ++ .nonFluents ⟨name, s₁ ++ .objects [] :: s₂⟩ :: after) (Scan.ofText line text))
    (honly : ∀ s ∈ s₁ ++ s₂, s.key ≠ "objects") :
    ∃ u w v : String, text = u ++ ("objects" ++ w ++ ";") ++ v ∧
      (Scan.ofText 1 ("objects" ++ w ++ ";")).lexemes = emptyObjects ∧
      Document.IsSpelledBy (before ++ .nonFluents ⟨name, s₁ ++ s₂⟩ :: after)
        (Scan.ofText line (u ++ v)) ∧
      (Reading.ofText line text).Clean ∧ (Reading.ofText line (u ++ v)).Clean ∧
      ((∃ cause, (Reading.ofText line text).verdict = .fault cause ∧
          (Reading.ofText line (u ++ v)).verdict = .fault cause) ∨
        ∃ m m', (Reading.ofText line text).verdict = .model m ∧
          (Reading.ofText line (u ++ v)).verdict = .model m' ∧
          ((∃ n, .nonFluents n ∈ after) → m' = m) ∧
          ((∀ n, .nonFluents n ∉ after) → m.ObjectsApart m' ∧
            (∀ t cause t₁, m.domain.build t = .error cause t₁ →
              m.build t = .error cause t₁ ∧ m'.build t = .error cause t₁) ∧
            (∀ t t₁, m.domain.build t = .ok () t₁ →
              m.build t = .error .wrongShape t₁ ∧ t₁.objects? = t.objects? ∧
              t₁.fluents? = t.fluents? ∧ (m'.build.outcome t).2.objects?.isSome = true) ∧
            (((m.build.outcome {}).1 = (m'.build.outcome {}).1 ∧
                (m.build.outcome {}).2.objects? = (m'.build.outcome {}).2.objects? ∧
                (m.build.outcome {}).2.fluents? = (m'.build.outcome {}).2.fluents?) ↔
              ∃ cause t₁, m.domain.build {} = .error cause t₁))) := by
  obtain ⟨u, w, v, htext, hsection, hwithout⟩ := Document.exists_text_without hspelled
  obtain ⟨hverdict, hclean⟩ := Reading.verdict_of_spelled hspelled
  obtain ⟨hverdict', hclean'⟩ := Reading.verdict_of_spelled hwithout
  refine ⟨u, w, v, htext, hsection, hwithout, hclean, hclean', ?_⟩
  rw [Reading.ofText, Reading.ofText, hverdict, hverdict']
  rcases Document.model_congr before after ⟨name, s₁ ++ .objects [] :: s₂⟩ ⟨name, s₁ ++ s₂⟩ with
    ⟨cause, hmodel, hmodel'⟩ | ⟨domain, problem, hmodel, hmodel'⟩
  · -- neither text gives a model
    left
    rw [hmodel, hmodel']
    exact ⟨cause, rfl, rfl⟩
  · right
    rw [hmodel, hmodel']
    refine ⟨_, _, rfl, rfl, ?_, ?_⟩
    · rintro ⟨n, hn⟩
      -- a later block of the kind replaces this one, with or without the section
      cases hafter : Document.nonFluents? after with
      | none => exact absurd hn (Document.nonFluents?_eq_none_iff.mp hafter n)
      | some attributes => rfl
    · -- this block is the last one, and the models differ in its objects
      intro hnone
      rw [Document.nonFluents?_eq_none_iff.mpr hnone]
      have hapart := objectsApart_of_sections domain problem name honly
      exact ⟨hapart, fun _ _ _ => hapart.build_of_error, fun _ _ => hapart.build_of_ok,
        hapart.same_iff rfl⟩

/-- A text with a section without objects, behind an illegal character and a remark. -/
def hollowText : String := "domain d \x7b pvariables \x7b \x7d; cpfs \x7b \x7d; reward = 1; \x7d
  non-fluents n \x7b domain = d; @ // nothing
    objects \x7b \x7d; \x7d
  instance i \x7b \x7d"

def hollowDomain : DomainBlock :=
  ⟨"d", none, [.pvariables [], .cpfs .cpfs [], .reward (.integer 1)]⟩

theorem hollowText_spells : Document.IsSpelledBy
    ([.domain hollowDomain] ++ .nonFluents ⟨"n", [.domain "d"] ++ .objects [] :: []⟩ ::
      [.problem ⟨"i", []⟩]) (Scan.ofText 1 hollowText) := by
  have hwritten : Items Block.Written ([.domain hollowDomain] ++
      .nonFluents ⟨"n", [.domain "d"] ++ .objects [] :: []⟩ :: [.problem ⟨"i", []⟩]) _ :=
    .cons (.domain "d" .none (.cons (.pvariables .nil) (.cons (.cpfs .nil)
        (.cons (.reward (.integer 1)) .nil))))
      (.cons (.nonFluents "n" (.cons (.domain "d") (.cons (.objects .nil) .nil)))
        (.cons (.problem "i" .nil) .nil))
  rw [hollowText, Reading.scan_eq_walk 1 rfl]
  exact Document.isSpelledBy_of_eq hwritten (by decide) (by decide +kernel)

/-- The model of the text cannot be built, and it can be built without the section. -/
theorem Model.build_of_hollowText :
    Document.IsSpelledBy
      ([.domain hollowDomain] ++ .nonFluents ⟨"n", [.domain "d"] ++ .objects [] :: []⟩ ::
        [.problem ⟨"i", []⟩]) (Scan.ofText 1 hollowText) ∧
    ∃ u w v m m', hollowText = u ++ ("objects" ++ w ++ ";") ++ v ∧
      (Reading.ofText 1 hollowText).verdict = .model m ∧
      (Reading.ofText 1 (u ++ v)).verdict = .model m' ∧
      (m.build.outcome {}).1 = some .wrongShape ∧ (m'.build.outcome {}).1 = none := by
  refine ⟨hollowText_spells, ?_⟩
  obtain ⟨u, w, v, htext, -, hwithout, -, -, hverdicts⟩ :=
    build_of_emptyObjects hollowText_spells (by decide)
  have hmodel := (Reading.verdict_of_spelled hollowText_spells).1
  have hmodel' := (Reading.verdict_of_spelled hwithout).1
  rcases hverdicts with ⟨cause, hfault, -⟩ | ⟨m, m', hm, hm', -, happart⟩
  · -- a fault is excluded, since the text gives a model
    cases hfault.symm.trans hmodel
  · obtain ⟨-, -, hok, -⟩ := happart (by simp)
    cases hm.symm.trans hmodel
    cases hm'.symm.trans hmodel'
    refine ⟨u, w, v, _, _, htext, hm, hm', ?_, ?_⟩
    · rw [outcome, (hok {} _ rfl).1]
    · rfl

end Rddl
