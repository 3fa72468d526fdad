/-
  Rddl/Proofs/Reader/Run.lean
  ===========================
  **Successful runs of readers.**

  A reader is a function from a place in the text to an outcome, so a run of a
  composed reader comes apart into the runs of its parts (`bind_eq_ok`).  Below that
  stand the readers of one token: what a successful run of each says about the
  lexemes ahead before and after it.  Later files take readers apart with these
  lemmas only and never look into the state.
-/
import Rddl.Reader.Document

namespace Rddl

/-! ### Lexemes ahead -/

namespace Scan

def lexemes (s : Scan) : List Lexeme := s.tokens.map Token.lexeme

@[simp] theorem lexemes_token (t : Token) (rest : Scan) :
    (Scan.token t rest).lexemes = t.lexeme :: rest.lexemes := rfl

@[simp] theorem lexemes_illegal (c : Char) (line : Nat) (rest : Scan) :
    (Scan.illegal c line rest).lexemes = rest.lexemes := rfl

@[simp] theorem lexemes_overlong (digits line : Nat) :
    (Scan.overlong digits line).lexemes = [] := rfl

@[simp] theorem lexemes_finished (line : Nat) : (Scan.finished line).lexemes = [] := rfl

/-- What passes over illegal characters is the same for a scan and for its settled part. -/
theorem apply_settled {β : Type} (f : Scan → β)
    (hf : ∀ c line rest, f (.illegal c line rest) = f rest) (s : Scan) : f s.settled = f s := by
  induction s with
  | illegal c line rest ih => exact ih.trans (hf c line rest).symm
  | token t rest ih => rfl
  | overlong digits line => rfl
  | finished line => rfl

@[simp] theorem tokens_settled (s : Scan) : s.settled.tokens = s.tokens :=
  apply_settled tokens (fun _ _ _ => rfl) s

@[simp] theorem fault?_settled (s : Scan) : s.settled.fault? = s.fault? :=
  apply_settled fault? (fun _ _ _ => rfl) s

@[simp] theorem lexemes_settled (s : Scan) : s.settled.lexemes = s.lexemes := by
  rw [lexemes, tokens_settled, lexemes]

/-- Behind the illegal characters stands a token, an overlong integer or the end. -/
theorem settled_cases (s : Scan) :
    (∃ t rest, s.settled = .token t rest) ∨ (∃ digits line, s.settled = .overlong digits line) ∨
      ∃ line, s.settled = .finished line := by
  induction s with
  | illegal c line rest ih => exact ih
  | token t rest ih => exact .inl ⟨t, rest, rfl⟩
  | overlong digits line => exact .inr (.inl ⟨digits, line, rfl⟩)
  | finished line => exact .inr (.inr ⟨line, rfl⟩)

theorem size_eq_length_lexemes (s : Scan) : s.size = s.lexemes.length := by
  simp [size, lexemes]

end Scan

namespace Cursor

def lexemes (c : Cursor) : List Lexeme := c.ahead.lexemes

/-- The lexeme that a reader sees at a place. -/
def next? (c : Cursor) : Option Lexeme :=
  match c.ahead with
  | .token t _ => some t.lexeme
  | _ => none

end Cursor

namespace Reader

variable {α β : Type} {c c' : Cursor}

/-! ### Composed readers -/

theorem bind_eq_ok {r : Reader α} {f : α → Reader β} {b : β} :
    (r >>= f) c = .ok b c' ↔ ∃ a c₁, r c = .ok a c₁ ∧ f a c₁ = .ok b c' := by
  change EStateM.bind r f c = .ok b c' ↔ _
  unfold EStateM.bind
  cases h : r c with
  | ok a c₁ =>
    constructor
    · intro hf
      exact ⟨a, c₁, rfl, hf⟩
    · rintro ⟨_, _, heq, hf⟩
      cases heq
      exact hf
  | error e c₁ => simp

theorem bind_run_ok {r : Reader α} {f : α → Reader β} {a : α} (h : r c = .ok a c') :
    (r >>= f) c = f a c' := by
  change EStateM.bind r f c = f a c'
  simp only [EStateM.bind, h]

theorem bind_run_error {r : Reader α} {f : α → Reader β} {s : Stop} (h : r c = .error s c') :
    (r >>= f) c = .error s c' := by
  change EStateM.bind r f c = .error s c'
  simp only [EStateM.bind, h]

theorem pure_eq_ok {a b : α} : (pure a : Reader α) c = .ok b c' ↔ a = b ∧ c = c' := by
  change EStateM.Result.ok a c = .ok b c' ↔ _
  simp

theorem map_eq_ok {r : Reader α} {f : α → β} {b : β} :
    (f <$> r) c = .ok b c' ↔ ∃ a, r c = .ok a c' ∧ f a = b := by
  rw [← bind_pure_comp, bind_eq_ok]
  simp only [pure_eq_ok]
  constructor
  · rintro ⟨a, c₁, hrun, rfl, rfl⟩
    exact ⟨a, hrun, rfl⟩
  · rintro ⟨a, hrun, rfl⟩
    exact ⟨a, c', hrun, rfl, rfl⟩

theorem discard_eq_ok {r : Reader α} {u : Unit} :
    (discard r : Reader Unit) c = .ok u c' ↔ ∃ a, r c = .ok a c' := by
  change ((fun _ => ()) <$> r : Reader Unit) c = .ok u c' ↔ _
  simp [map_eq_ok]

theorem unexpected_ne_ok {a : α} : (unexpected : Reader α) c ≠ .ok a c' := by
  change EStateM.Result.error Stop.unexpected c ≠ .ok a c'
  simp

theorem throw_ne_ok {s : Stop} {a : α} : (throw s : Reader α) c ≠ .ok a c' := by
  change EStateM.Result.error s c ≠ .ok a c'
  simp

theorem bound_eq_ok {n : Nat} :
    bound c = .ok n c' ↔ 2 * c.lexemes.length + 2 = n ∧ c = c' := by
  change EStateM.Result.ok (2 * c.ahead.size + 2) c = .ok n c' ↔ _
  simp [Scan.size_eq_length_lexemes, Cursor.lexemes]

theorem peek_run (c : Cursor) : peek c = .ok c.next? c := by
  obtain ⟨ahead, log, patience⟩ := c
  cases ahead <;> rfl

theorem peek_eq_ok {next : Option Lexeme} : peek c = .ok next c' ↔ c.next? = next ∧ c = c' := by
  simp [peek_run]

/-! ### Readers of one token -/

theorem enter_run (scan : Scan) (log : List Message) (patience : Nat) (c : Cursor) :
    enter scan log patience c = match scan.settled with
      | .overlong digits _ => .error (.fault (.overlongInteger digits))
          ⟨scan.settled, scan.skipped.reverse ++ log, patience⟩
      | _ => .ok () ⟨scan.settled, scan.skipped.reverse ++ log, patience⟩ := by
  rw [enter]
  cases scan.settled <;> rfl

theorem enter_eq_ok {scan : Scan} {log : List Message} {patience : Nat} {u : Unit} :
    enter scan log patience c = .ok u c' ↔
      (∀ digits line, scan.settled ≠ .overlong digits line) ∧
        c' = ⟨scan.settled, scan.skipped.reverse ++ log, patience⟩ := by
  rw [enter_run]
  cases scan.settled <;> simp [eq_comm]

theorem advance_run (c : Cursor) :
    advance c = match c.ahead with
      | .token _ rest => enter rest c.log (c.patience - 1) c
      | _ => .error .unexpected c := by
  obtain ⟨ahead, log, patience⟩ := c
  cases ahead <;> rfl

theorem advance_eq_ok {u : Unit} :
    advance c = .ok u c' ↔ ∃ t rest, c.ahead = .token t rest ∧
      enter rest c.log (c.patience - 1) c = .ok u c' := by
  rw [advance_run]
  cases h : c.ahead with
  | token t rest =>
    constructor
    · intro henter
      exact ⟨t, rest, rfl, henter⟩
    · rintro ⟨_, _, heq, henter⟩
      cases heq
      exact henter
  | illegal char line rest => simp
  | overlong digits line => simp
  | finished line => simp

/-- Taking a token takes exactly the lexeme that is seen. -/
theorem lexemes_of_advance {u : Unit} (h : advance c = .ok u c') :
    ∃ l, c.next? = some l ∧ c.lexemes = l :: c'.lexemes := by
  obtain ⟨t, rest, hahead, henter⟩ := advance_eq_ok.mp h
  obtain ⟨-, rfl⟩ := enter_eq_ok.mp henter
  exact ⟨t.lexeme, by simp [Cursor.next?, hahead], by simp [Cursor.lexemes, hahead]⟩

/-- Taking a token whose lexeme has been seen takes that lexeme. -/
theorem lexemes_of_seen {u : Unit} {l : Lexeme} (hseen : c.next? = some l)
    (h : advance c = .ok u c') : c.lexemes = l :: c'.lexemes := by
  obtain ⟨l', hnext, hlex⟩ := lexemes_of_advance h
  cases hseen.symm.trans hnext
  exact hlex

theorem take_eq_ok {use : Lexeme → Option α} {a : α} (h : take use c = .ok a c') :
    ∃ l, use l = some a ∧ c.lexemes = l :: c'.lexemes := by
  simp only [take, bind_eq_ok, peek_eq_ok] at h
  obtain ⟨_, _, ⟨rfl, rfl⟩, h⟩ := h
  cases huse : c.next?.bind use with
  | none => simp [huse, unexpected_ne_ok] at h
  | some b =>
    simp only [huse, bind_eq_ok, pure_eq_ok] at h
    obtain ⟨_, _, hadv, rfl, rfl⟩ := h
    obtain ⟨l, hseen, huse⟩ := Option.bind_eq_some_iff.mp huse
    exact ⟨l, huse, lexemes_of_seen hseen hadv⟩

theorem expect_eq_ok {l : Lexeme} {u : Unit} (h : expect l c = .ok u c') :
    c.lexemes = l :: c'.lexemes := by
  obtain ⟨l', huse, hlex⟩ := take_eq_ok h
  by_cases heq : l' = l
  · rw [hlex, heq]
  · simp [heq] at huse

theorem symbol_eq_ok {mark : Symbol} {u : Unit} (h : symbol mark c = .ok u c') :
    c.lexemes = .symbol mark :: c'.lexemes := expect_eq_ok h

theorem keyword_eq_ok {word : Keyword} {u : Unit} (h : keyword word c = .ok u c') :
    c.lexemes = .keyword word :: c'.lexemes := expect_eq_ok h

/-- A lexeme that may be taken is taken, or another one stands ahead and nothing is. -/
theorem accept_eq_ok {l : Lexeme} {b : Bool} (h : accept l c = .ok b c') :
    (b = true ∧ c.lexemes = l :: c'.lexemes) ∨ (b = false ∧ c' = c) := by
  simp only [accept, bind_eq_ok, peek_eq_ok] at h
  obtain ⟨_, _, ⟨rfl, rfl⟩, h⟩ := h
  split at h
  · next hnext =>
    simp only [bind_eq_ok, pure_eq_ok] at h
    obtain ⟨_, _, hadv, rfl, rfl⟩ := h
    exact .inl ⟨rfl, lexemes_of_seen (beq_iff_eq.mp hnext) hadv⟩
  · simp only [pure_eq_ok] at h
    exact .inr ⟨h.1.symm, h.2.symm⟩

theorem acceptSymbol_eq_ok {mark : Symbol} {b : Bool} (h : acceptSymbol mark c = .ok b c') :
    (b = true ∧ c.lexemes = .symbol mark :: c'.lexemes) ∨ (b = false ∧ c' = c) :=
  accept_eq_ok h

theorem ident_eq_ok {name : String} (h : ident c = .ok name c') :
    c.lexemes = .ident name :: c'.lexemes := by
  obtain ⟨l, huse, hlex⟩ := take_eq_ok h
  cases l <;> simp_all

theorem variableName_eq_ok {name : String} (h : variableName c = .ok name c') :
    c.lexemes = .variable name :: c'.lexemes := by
  obtain ⟨l, huse, hlex⟩ := take_eq_ok h
  cases l <;> simp_all

theorem enumValue_eq_ok {name : String} (h : enumValue c = .ok name c') :
    c.lexemes = .enumValue name :: c'.lexemes := by
  obtain ⟨l, huse, hlex⟩ := take_eq_ok h
  cases l <;> simp_all

/-! ### A reader with two ways to one end -/

def pvarDeclRest (name : String) (params : Option (List String)) : Reader PVarDecl := do
  symbol .colon
  symbol .leftCurly
  let kind ← fluentKind
  symbol .comma
  let range ← range
  let role ← role kind
  symbol .rightCurly
  symbol .semicolon
  pure ⟨name, params, range, role⟩

/-- A declaration is its name, its parameters and the rest, which is read alike whether
    there is a parameter list or not. -/
theorem pvarDecl_eq : pvarDecl = (do
    let n ← bound
    let name ← ident
    if ← acceptSymbol .leftParen then
      let types ← looseList ident .rightParen n
      pvarDeclRest name (some types)
    else pvarDeclRest name none) := rfl

end Reader

end Rddl
