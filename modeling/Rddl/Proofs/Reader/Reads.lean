/-
  Rddl/Proofs/Reader/Reads.lean
  =============================
  **What readers make of given lexemes.**

  `Reads r ls rest a` says that the reader `r`, in front of the lexemes `ls` and then
  `rest`, takes exactly `ls` and returns `a`.  Readers put together read what their
  parts read one after another (`Reads.bind`).  Where a reader ends depends on the
  lexeme behind it, so the lemmas about lists ask that what follows an item may do so.
-/
import Rddl.Proofs.Reader.Scripted
import Rddl.Proofs.Syntax.Expr

namespace Rddl

/-! ### Places in front of given lexemes -/

/-- A place with the given lexemes ahead up to the end of the text. -/
structure Cursor.Faces (c : Cursor) (ls : List Lexeme) : Prop where
  lexemes : c.lexemes = ls
  settled : c.Settled
  fault : c.ahead.fault? = none

theorem Cursor.Faces.next? {c : Cursor} {ls : List Lexeme} (h : c.Faces ls) :
    c.next? = ls.head? := by
  rw [← h.lexemes]
  rcases h.settled with ⟨t, rest, hahead⟩ | ⟨line, hahead⟩
  · simp [Cursor.next?, Cursor.lexemes, hahead]
  · simp [Cursor.next?, Cursor.lexemes, hahead]

/-- Behind the illegal characters of a sound scan stands a token or the end. -/
theorem Scan.settled_cases_of_fault? {s : Scan} (h : s.fault? = none) :
    (∃ t rest, s.settled = .token t rest) ∨ ∃ line, s.settled = .finished line := by
  rcases s.settled_cases with htoken | ⟨digits, line, hoverlong⟩ | hfinished
  · exact .inl htoken
  · rw [← Scan.fault?_settled, hoverlong] at h
    cases h
  · exact .inr hfinished

/-- Going on with a sound scan leads in front of its lexemes. -/
theorem Cursor.faces_of_enter {s : Scan} (h : s.fault? = none) (log : List Message)
    (patience : Nat) (c : Cursor) :
    ∃ c', Reader.enter s log patience c = .ok () c' ∧ c'.Faces s.lexemes := by
  have hcases := Scan.settled_cases_of_fault? h
  refine ⟨⟨s.settled, s.skipped.reverse ++ log, patience⟩, ?_, ?_⟩
  · refine Reader.enter_eq_ok.mpr ⟨?_, rfl⟩
    intro digits line heq
    rcases hcases with ⟨t, rest, hsettled⟩ | ⟨line', hsettled⟩
    · cases heq.symm.trans hsettled
    · cases heq.symm.trans hsettled
  · exact ⟨by simp [Cursor.lexemes], hcases, by simpa using h⟩

namespace Reader

variable {α β : Type}

/-- In front of the given lexemes a reader takes the first of them and returns a value. -/
def Reads (r : Reader α) (ls rest : List Lexeme) (a : α) : Prop :=
  ∀ c : Cursor, c.Faces (ls ++ rest) → ∃ c', r c = .ok a c' ∧ c'.Faces rest

namespace Reads

variable {r : Reader α} {f : α → Reader β} {l : Lexeme} {ls ls' rest : List Lexeme} {a : α} {b : β}

/-! ### Composed readers -/

theorem pure (a : α) : Reads (pure a) [] rest a := by
  intro c hc
  exact ⟨c, rfl, hc⟩

theorem bind (hr : Reads r ls (ls' ++ rest) a) (hf : Reads (f a) ls' rest b) :
    Reads (r >>= f) (ls ++ ls') rest b := by
  intro c hc
  rw [List.append_assoc] at hc
  obtain ⟨c₁, hrun, hc₁⟩ := hr c hc
  obtain ⟨c₂, hrun', hc₂⟩ := hf c₁ hc₁
  exact ⟨c₂, bind_eq_ok.mpr ⟨a, c₁, hrun, hrun'⟩, hc₂⟩

/-- A first part that takes one lexeme. -/
theorem andThen (hr : Reads r [l] (ls ++ rest) a) (hf : Reads (f a) ls rest b) :
    Reads (r >>= f) (l :: ls) rest b :=
  bind hr hf

/-- A first part that takes nothing. -/
theorem before (hr : Reads r [] (ls ++ rest) a) (hf : Reads (f a) ls rest b) :
    Reads (r >>= f) ls rest b :=
  bind hr hf

/-- A last part that takes nothing. -/
theorem ending (hr : Reads r ls rest a) (hf : Reads (f a) [] rest b) :
    Reads (r >>= f) ls rest b := by
  rw [← List.append_nil ls]
  exact bind hr hf

/-- A last part that only makes something of what was read. -/
theorem returning (hr : Reads r ls rest a) (g : α → β) :
    Reads (r >>= fun x => Pure.pure (g x)) ls rest (g a) :=
  ending hr (pure (g a))

/-! ### Readers of one token -/

theorem peek : Reads peek [] rest rest.head? := by
  intro c hc
  exact ⟨c, by rw [peek_run, hc.next?]; rfl, hc⟩

/-- A reader that goes by the lexeme ahead. -/
theorem seeing {f : Option Lexeme → Reader β} (h : Reads (f (some l)) (l :: ls) rest b) :
    Reads (Reader.peek >>= f) (l :: ls) rest b :=
  before peek h

theorem advance : Reads advance [l] rest () := by
  intro c hc
  have hlexemes := hc.lexemes
  rcases hc.settled with ⟨t, s, hahead⟩ | ⟨line, hahead⟩
  · have hfault : s.fault? = none := by simpa [hahead, Scan.fault?] using hc.fault
    obtain ⟨c', henter, hc'⟩ := Cursor.faces_of_enter hfault c.log (c.patience - 1) c
    simp only [Cursor.lexemes, hahead, Scan.lexemes_token, List.cons_append, List.nil_append,
      List.cons.injEq] at hlexemes
    exact ⟨c', advance_eq_ok.mpr ⟨t, s, hahead, henter⟩, hlexemes.2 ▸ hc'⟩
  · simp [Cursor.lexemes, hahead] at hlexemes

theorem take {use : Lexeme → Option α} (h : use l = some a) : Reads (take use) [l] rest a := by
  refine seeing ?_
  simp only [Option.bind_some, h]
  exact andThen advance (pure a)

theorem symbol (m : Symbol) : Reads (symbol m) [.symbol m] rest () := take (if_pos rfl)

theorem keyword (w : Keyword) : Reads (keyword w) [.keyword w] rest () := take (if_pos rfl)

theorem ident (name : String) : Reads ident [.ident name] rest name := take rfl

theorem variableName (name : String) : Reads variableName [.variable name] rest name := take rfl

theorem accept_true : Reads (accept l) [l] rest true := by
  refine seeing ?_
  simp only [BEq.rfl, if_true]
  exact andThen advance (pure true)

theorem accept_false (hne : rest.head? ≠ some l) : Reads (accept l) [] rest false := by
  refine before peek ?_
  rw [if_neg (by simpa using hne)]
  exact pure false

theorem accepting {f : Bool → Reader β} (h : Reads (f true) ls rest b) :
    Reads (accept l >>= f) (l :: ls) rest b :=
  andThen accept_true h

theorem refusing {f : Bool → Reader β} (hne : (ls ++ rest).head? ≠ some l)
    (h : Reads (f false) ls rest b) : Reads (accept l >>= f) ls rest b :=
  before (accept_false hne) h

theorem discard (hr : Reads r ls rest a) : Reads (discard r) ls rest () := by
  intro c hc
  obtain ⟨c', hrun, hc'⟩ := hr c hc
  exact ⟨c', discard_eq_ok.mpr ⟨a, hrun⟩, hc'⟩

theorem bound : Reads bound [] rest (2 * rest.length + 2) := by
  intro c hc
  refine ⟨c, bound_eq_ok.mpr ⟨?_, rfl⟩, hc⟩
  rw [hc.lexemes, List.nil_append]

theorem note (m : Message) : Reads (note m) [] rest () := by
  intro c hc
  exact ⟨{ c with log := m :: c.log }, rfl, hc.lexemes, hc.settled, hc.fault⟩

end Reads

/-! ### Lists -/

section Lists

variable {item : Reader α} {Ok : Option Lexeme → Prop} {as : List α} {ls rest : List Lexeme}
  {n : Nat}

/-- An item is read wherever what follows it may do so. -/
def ReadsWhere (item : Reader α) (Ok : Option Lexeme → Prop) (a : α) (ls : List Lexeme) : Prop :=
  ∀ rest : List Lexeme, Ok rest.head? → Reads item ls rest a

/-- What follows an item of a list is a comma or what follows the list. -/
theorem follows_of_commaTail (has : CommaTail (ReadsWhere item Ok) as ls)
    (hcomma : Ok (some (.symbol .comma))) (hrest : Ok rest.head?) : Ok (ls ++ rest).head? := by
  cases has with
  | nil => exact hrest
  | cons _ _ => exact hcomma

theorem commaTail_reads (has : CommaTail (ReadsWhere item Ok) as ls) (hn : ls.length < n)
    (hcomma : Ok (some (.symbol .comma))) (hrest : Ok rest.head?)
    (hend : rest.head? ≠ some (.symbol .comma)) : Reads (commaTail item n) ls rest as := by
  -- each item takes a comma at least, so the bound outlasts the lexemes of the list
  induction has generalizing n with
  | nil =>
    obtain ⟨n, rfl⟩ := Nat.exists_eq_succ_of_ne_zero (Nat.ne_of_gt hn)
    exact .refusing hend (.pure [])
  | cons ha has ih =>
    obtain ⟨n, rfl⟩ := Nat.exists_eq_succ_of_ne_zero (Nat.ne_of_gt (Nat.zero_lt_of_lt hn))
    simp only [List.length_cons, List.length_append] at hn
    have hitem := ha _ (follows_of_commaTail has hcomma hrest)
    exact .accepting (.bind hitem (.returning (ih (by omega)) _))

theorem commaList_reads (has : CommaList (ReadsWhere item Ok) as ls) (hn : ls.length < n)
    (hcomma : Ok (some (.symbol .comma))) (hrest : Ok rest.head?)
    (hend : rest.head? ≠ some (.symbol .comma)) : Reads (commaList item n) ls rest as := by
  cases has with
  | mk ha has =>
    simp only [List.length_append] at hn
    have hitem := ha _ (follows_of_commaTail has hcomma hrest)
    exact .bind hitem (.returning (commaTail_reads has (by omega) hcomma hrest hend) _)

/-- Items of a loose list start with a name, so that they are told from what closes it. -/
theorem looseList_reads {close : Symbol}
    (has : LooseList (fun a l => ReadsWhere item Ok a l ∧
      ∃ x xs, l = x :: xs ∧ ∀ m, x ≠ .symbol m) as ls)
    (hn : ls.length < n) (hcomma : Ok (some (.symbol .comma)))
    (hclose : Ok (some (.symbol close))) (hne : close ≠ .comma) :
    Reads (looseList item close n) (ls ++ [.symbol close]) rest as := by
  have hend : (Lexeme.symbol close :: rest).head? ≠ some (.symbol .comma) := by
    simpa using hne
  -- what comes first tells which way the list is read: its end, a comma or an item
  cases has with
  | nil =>
    refine .seeing ?_
    simp only [BEq.rfl, Bool.true_or, if_true]
    exact .before (commaTail_reads .nil hn hcomma hclose hend) (.returning (.symbol close) _)
  | @plain a as l ls' ha has =>
    have hlist : CommaList (ReadsWhere item Ok) (a :: as) (l ++ ls') :=
      .mk ha.1 (has.imp fun _ _ _ h => h.1)
    have hitems : Reads (commaList item n) (l ++ ls') ([.symbol close] ++ rest) (a :: as) :=
      commaList_reads hlist hn hcomma hclose hend
    obtain ⟨-, x, xs, rfl, hx⟩ := ha
    refine .seeing ?_
    rw [if_neg (by simp [hx])]
    exact .bind hitems (.returning (.symbol close) fun _ => a :: as)
  | @afterComma a as l ls' ha has =>
    have htail : CommaTail (ReadsWhere item Ok) (a :: as) (.symbol .comma :: (l ++ ls')) :=
      .cons ha.1 (has.imp fun _ _ _ h => h.1)
    have hitems : Reads (commaTail item n) (.symbol .comma :: (l ++ ls'))
        ([.symbol close] ++ rest) (a :: as) :=
      commaTail_reads htail hn hcomma hclose hend
    refine .seeing ?_
    simp only [BEq.rfl, Bool.or_true, if_true]
    exact .bind hitems (.returning (.symbol close) fun _ => a :: as)

end Lists

end Reader

end Rddl
