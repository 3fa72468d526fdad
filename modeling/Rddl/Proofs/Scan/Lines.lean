/-
  Rddl/Proofs/Scan/Lines.lean
  ===========================
  **The lines of a scan.**

  Only a newline ends a line, and no piece of a text that is taken as a whole has one in
  it.  So the line of every token and of every illegal character is that of the first
  line of the text, moved on by the newlines before it (`Scan.lined_ofText`).
-/
import Rddl.Proofs.Scan.Spelling

namespace Rddl.Scan

def newlinesBefore (text : List Char) (position : Nat) : Nat := (text.take position).count '\n'

/-- The illegal characters of a text, each with its position.  The first `skip` characters
    belong to a piece already taken. -/
def illegalPlaces (skip position : Nat) : List Char → List (Nat × Char)
  | [] => []
  | c :: cs =>
    match skip with
    | skip + 1 => illegalPlaces skip (position + 1) cs
    | 0 =>
      match Front.of c cs with
      | .blank | .newline => illegalPlaces 0 (position + 1) cs
      | .comment length | .lexeme _ length => illegalPlaces (length - 1) (position + 1) cs
      | .overlong _ => []
      | .illegal => (position, c) :: illegalPlaces 0 (position + 1) cs

/-- A scan whose lines are counted along the text. -/
structure Lined (text : List Char) (first : Nat) (places : List (Nat × Char)) (scan : Scan) :
    Prop where
  tokens : ∀ t ∈ scan.tokens, t.line = first + newlinesBefore text t.position ∧
    ∃ w, t.lexeme.Spelled w ∧ w <+: text.drop t.position
  placed : ∀ p ∈ places, ∃ behind, text.drop p.1 = p.2 :: behind ∧ Front.of p.2 behind = .illegal
  illegals : scan.illegals = places.map fun p => (p.2, first + newlinesBefore text p.1)
  lastLine : ∃ n ≤ text.length, scan.lastLine = first + newlinesBefore text n ∧
    (scan.fault? = none → n = text.length)

namespace Lined

variable {first : Nat} {places : List (Nat × Char)} {scan : Scan} {before cs w : List Char}

theorem newlinesBefore_append (before cs : List Char) :
    newlinesBefore (before ++ cs) before.length = before.count '\n' := by
  rw [newlinesBefore, List.take_left]

theorem finished : Lined before first [] (.finished (first + before.count '\n')) := by
  refine ⟨by simp [Scan.tokens], by simp, rfl, before.length, Nat.le_refl _, ?_, fun _ => rfl⟩
  rw [newlinesBefore, List.take_length]
  rfl

theorem token {l : Lexeme} (hw : w <+: cs) (hl : l.Spelled w)
    (h : Lined (before ++ cs) first places scan) :
    Lined (before ++ cs) first places
      (.token ⟨l, first + before.count '\n', before.length⟩ scan) := by
  refine ⟨?_, h.placed, h.illegals, h.lastLine⟩
  intro t ht
  rcases List.mem_cons.mp ht with rfl | ht
  · refine ⟨by rw [newlinesBefore_append], w, hl, ?_⟩
    rwa [List.drop_left]
  · exact h.tokens t ht

theorem overlong (digits : Nat) :
    Lined (before ++ cs) first [] (.overlong digits (first + before.count '\n')) := by
  refine ⟨by simp [Scan.tokens], by simp, rfl, before.length, by simp, ?_, by simp [Scan.fault?]⟩
  rw [newlinesBefore_append]
  rfl

theorem illegal {c : Char} (hc : Front.of c cs = .illegal)
    (h : Lined (before ++ c :: cs) first places scan) :
    Lined (before ++ c :: cs) first ((before.length, c) :: places)
      (.illegal c (first + before.count '\n') scan) := by
  refine ⟨h.tokens, ?_, ?_, h.lastLine⟩
  · intro p hp
    rcases List.mem_cons.mp hp with rfl | hp
    · exact ⟨cs, List.drop_left, hc⟩
    · exact h.placed p hp
  · rw [Scan.illegals, h.illegals, List.map_cons, newlinesBefore_append]

end Lined

/-- The rest of a piece that is taken as a whole has no newline in it. -/
theorem notMem_take_of_isPrefix {c x : Char} {cs w : List Char} (h : w <+: c :: cs) (hx : x ∉ w) :
    x ∉ cs.take (w.length - 1) := by
  cases w with
  | nil => simp
  | cons d w =>
    obtain ⟨-, htail⟩ := List.cons_prefix_cons.mp h
    rw [List.length_cons, Nat.add_sub_cancel, ← List.prefix_iff_eq_take.mp htail]
    exact fun hmem => hx (List.mem_cons_of_mem d hmem)

/-- The first character of a piece that is taken as a whole is in it. -/
theorem mem_of_isPrefix {c : Char} {cs w : List Char} (h : w <+: c :: cs) (hne : w ≠ []) :
    c ∈ w := by
  obtain ⟨d, w, rfl⟩ := List.exists_cons_of_ne_nil hne
  obtain ⟨rfl, -⟩ := List.cons_prefix_cons.mp h
  exact List.mem_cons_self

theorem lined_walk (first skip : Nat) (before cs : List Char) (hskip : '\n' ∉ cs.take skip) :
    Lined (before ++ cs) first (illegalPlaces skip before.length cs)
      (Scan.walk skip (first + before.count '\n') before.length cs) := by
  induction cs generalizing skip before with
  | nil =>
    rw [List.append_nil]
    exact Lined.finished
  | cons c cs ih =>
    -- all goes on behind the first character, whose line only a newline ends
    have hnext : ∀ skip, c ≠ '\n' → '\n' ∉ cs.take skip →
        Lined (before ++ c :: cs) first (illegalPlaces skip (before.length + 1) cs)
          (Scan.walk skip (first + before.count '\n') (before.length + 1) cs) := by
      intro skip hc hskip
      have hih := ih skip (before ++ [c]) hskip
      rwa [List.append_assoc, List.count_append, List.count_singleton, List.length_append,
        List.length_singleton, if_neg (by simpa using hc)] at hih
    cases skip with
    | succ skip =>
      rw [List.take_succ_cons, List.mem_cons, not_or] at hskip
      exact hnext skip (Ne.symm hskip.1) hskip.2
    | zero =>
      rw [illegalPlaces, walk]
      have htakes := Front.takes_of c cs
      generalize hfront : Front.of c cs = front at htakes
      cases htakes with
      | blank hc => exact hnext 0 hc (by simp)
      | newline hc =>
        subst hc
        have hih := ih 0 (before ++ ['\n']) (by simp)
        rwa [List.append_assoc, List.count_append, List.count_singleton_self,
          List.length_append, List.length_singleton, ← Nat.add_assoc] at hih
      | @comment w hw hne hnewline =>
        have hc : c ≠ '\n' := fun h => hnewline (h ▸ mem_of_isPrefix hw hne)
        exact hnext _ hc (notMem_take_of_isPrefix hw hnewline)
      | @lexeme l w hw hl =>
        have hc : c ≠ '\n' := fun h => hl.newline_notMem (h ▸ mem_of_isPrefix hw hl.ne_nil)
        exact .token hw hl (hnext _ hc (notMem_take_of_isPrefix hw hl.newline_notMem))
      | overlong _ _ _ => exact .overlong _
      | illegal hc => exact .illegal hfront (hnext 0 hc (by simp))

/-- **The lines of a scan are counted along its text.** -/
theorem lined_ofText (first : Nat) (text : String) :
    Lined text.toList first (illegalPlaces 0 0 text.toList) (Scan.ofText first text) :=
  lined_walk first 0 [] text.toList (by simp)

end Rddl.Scan
