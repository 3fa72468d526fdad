/-
  Rddl/Proofs/Scan/Names.lean
  ===========================
  **The identifiers of a text.**

  Every identifier that a scan delivers is a letter followed by name characters,
  perhaps with a prime at its end (`isIdent_of_mem_lexemes`).  In particular it has no
  slash, so the name of a fluent can be taken apart again.
-/
import Rddl.Proofs.Reader.Run

namespace Rddl

namespace Lexeme

/-- Whether characters may stand behind the first letter of an identifier. -/
def isIdentTail : List Char → Bool
  | [] => true
  | c :: cs => (isNameChar c && isIdentTail cs) || (c == '\'' && cs.isEmpty)

/-- Whether characters have the form of an identifier. -/
def isIdent : List Char → Bool
  | [] => false
  | c :: cs => c.isAlpha && isIdentTail cs

theorem isIdentTail_append {run tail : List Char} (hrun : ∀ c ∈ run, isNameChar c = true)
    (htail : isIdentTail tail = true) : isIdentTail (run ++ tail) = true := by
  induction run with
  | nil => exact htail
  | cons c cs ih =>
    have hc := hrun c (by simp)
    have hcs := ih fun x hx => hrun x (by simp [hx])
    simp [isIdentTail, hc, hcs]

theorem isNameChar_of_mem_nameRun {cs : List Char} {c : Char} (h : c ∈ nameRun cs) :
    isNameChar c = true := by
  have hrun : c ∈ cs.takeWhile isNameChar := by
    simp only [nameRun, List.mem_reverse] at h
    exact List.mem_reverse.mp ((List.dropWhile_sublist _).mem h)
  exact List.all_eq_true.mp List.all_takeWhile c hrun

theorem isIdent_of_identFront? {cs name : List Char} (h : identFront? cs = some name) :
    isIdent name = true := by
  unfold identFront? at h
  split at h
  · simp at h
  · next c cs =>
    split at h
    · next halpha =>
      have hrun : ∀ x ∈ nameRun cs, isNameChar x = true := fun x => isNameChar_of_mem_nameRun
      simp only at h
      split at h
      · cases h
        have htail : isIdentTail (nameRun cs ++ ['\'']) = true := isIdentTail_append hrun rfl
        simp [isIdent, halpha, htail]
      · cases h
        have htail : isIdentTail (nameRun cs ++ []) = true := isIdentTail_append hrun rfl
        simpa [isIdent, halpha] using htail
    · simp at h

theorem ofName_eq_ident {cs : List Char} {name : String} (h : ofName cs = .ident name) :
    name.toList = cs := by
  unfold ofName at h
  simp only at h
  split at h <;> simp_all
  rw [← h, String.toList_ofList]

/-! ### Characters of identifiers -/

theorem isNameChar_of_isAlpha {c : Char} (h : c.isAlpha = true) : isNameChar c = true := by
  simp [isNameChar, Char.isAlphanum, h]

/-- The whole of an identifier has the form of its tail. -/
theorem isIdentTail_of_isIdent {cs : List Char} (h : isIdent cs = true) :
    isIdentTail cs = true := by
  cases cs with
  | nil => rfl
  | cons c cs =>
    simp only [isIdent, Bool.and_eq_true] at h
    simp [isIdentTail, isNameChar_of_isAlpha h.1, h.2]

/-- An identifier has no characters but name characters and primes. -/
theorem notMem_of_isIdentTail {x : Char} (hname : isNameChar x = false) (hprime : x ≠ '\'')
    {cs : List Char} (h : isIdentTail cs = true) : x ∉ cs := by
  induction cs with
  | nil => simp
  | cons c cs ih =>
    simp only [isIdentTail, Bool.or_eq_true, Bool.and_eq_true, beq_iff_eq,
      List.isEmpty_iff] at h
    rcases h with ⟨hc, hcs⟩ | ⟨rfl, rfl⟩
    · have hne : c ≠ x := by
        rintro rfl
        exact absurd hc (by simp [hname])
      simp [Ne.symm hne, ih hcs]
    · simpa using hprime

theorem slash_notMem_of_isIdentTail {cs : List Char} (h : isIdentTail cs = true) : '/' ∉ cs :=
  notMem_of_isIdentTail (by decide) (by decide) h

end Lexeme

/-! ### Scans -/

theorem Front.isIdent_of_of {c : Char} {cs : List Char} {name : String} {length : Nat}
    (h : Front.of c cs = .lexeme (.ident name) length) :
    Lexeme.isIdent name.toList = true := by
  unfold Front.of at h
  split at h
  · simp at h
  split at h
  · simp at h
  split at h
  · simp at h
  split at h
  · next front hfront =>
    simp only [Front.lexeme.injEq] at h
    rw [Lexeme.ofName_eq_ident h.1]
    exact Lexeme.isIdent_of_identFront? hfront
  -- the other forms of lexemes are no identifiers
  split at h
  · simp at h
  split at h
  · simp at h
  split at h
  · simp at h
  split at h
  · split at h <;> simp at h
  split at h <;> simp at h

theorem Scan.isIdent_of_mem_walk {skip line position : Nat} {cs : List Char} {name : String}
    (h : .ident name ∈ (Scan.walk skip line position cs).lexemes) :
    Lexeme.isIdent name.toList = true := by
  induction cs generalizing skip line position with
  | nil => simp [Scan.walk] at h
  | cons c cs ih =>
    unfold Scan.walk at h
    split at h
    · exact ih h
    · split at h
      · exact ih h
      · exact ih h
      · exact ih h
      · -- only a lexeme can be the one; all other pieces deliver none
        next value length hfront =>
        rcases List.mem_cons.mp h with heq | h
        · simp only at heq
          exact Front.isIdent_of_of (heq ▸ hfront)
        · exact ih h
      · simp at h
      · exact ih h

/-- **Every identifier of a text has the form of one.** -/
theorem Scan.isIdent_of_mem_lexemes {line : Nat} {text name : String}
    (h : .ident name ∈ (Scan.ofText line text).lexemes) :
    Lexeme.isIdent name.toList = true := isIdent_of_mem_walk h

end Rddl
