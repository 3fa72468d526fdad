/-
  Rddl/Proofs/Datum/Equality.lean
  ===============================
  **Equality of untyped trees can be decided.**

  Two trees are compared part by part.  This is the equality of trees as such, which tells
  the number one from the truth value and from the real number that agree with it.
-/
import Rddl.Datum

namespace Rddl

namespace Datum

mutual

def same : Datum → Datum → Bool
  | .text a, .text b => a == b
  | .integer a, .integer b => a == b
  | .real a, .real b => a == b
  | .truth a, .truth b => a == b
  | .absent, .absent => true
  | .tuple as, .tuple bs => sameAll as bs
  | .list as, .list bs => sameAll as bs
  | .expression a, .expression b => a.same b
  | .pvariable name kind range params default level,
      .pvariable name' kind' range' params' default' level' =>
    name.same name' && kind.same kind' && range.same range' && params.same params' &&
      default.same default' && level.same level'
  | .cpf target body, .cpf target' body' => target.same target' && body.same body'
  | _, _ => false

def sameAll : List Datum → List Datum → Bool
  | [], [] => true
  | a :: as, b :: bs => a.same b && sameAll as bs
  | _, _ => false

end

mutual

theorem same_self : ∀ a : Datum, a.same a = true
  | .text _ | .integer _ | .real _ | .truth _ | .absent => by simp [same]
  | .tuple as | .list as => by rw [same, sameAll_self as]
  | .expression a => by rw [same, same_self a]
  | .pvariable name kind range params default level => by
    simp only [same, same_self name, same_self kind, same_self range, same_self params,
      same_self default, same_self level, Bool.and_self]
  | .cpf target body => by simp only [same, same_self target, same_self body, Bool.and_self]

theorem sameAll_self : ∀ as : List Datum, sameAll as as = true
  | [] => by rw [sameAll]
  | a :: as => by rw [sameAll, same_self a, sameAll_self as, Bool.and_self]

end

mutual

theorem eq_of_same : ∀ a b : Datum, a.same b = true → a = b
  -- leaves carry a value, all other data carry data, and are compared part by part
  | .text _, b, h | .integer _, b, h | .real _, b, h | .truth _, b, h | .absent, b, h => by
    cases b <;> simp_all [same]
  | .tuple as, b, h => by
    cases b with
    | tuple bs => rw [eq_of_sameAll as bs h]
    | _ => simp [same] at h
  | .list as, b, h => by
    cases b with
    | list bs => rw [eq_of_sameAll as bs h]
    | _ => simp [same] at h
  | .expression a, b, h => by
    cases b with
    | expression b => rw [eq_of_same a b h]
    | _ => simp [same] at h
  | .pvariable name kind range params default level, b, h => by
    cases b with
    | pvariable name' kind' range' params' default' level' =>
      simp only [same, Bool.and_eq_true] at h
      obtain ⟨⟨⟨⟨⟨hname, hkind⟩, hrange⟩, hparams⟩, hdefault⟩, hlevel⟩ := h
      rw [eq_of_same name name' hname, eq_of_same kind kind' hkind, eq_of_same range range' hrange,
        eq_of_same params params' hparams, eq_of_same default default' hdefault,
        eq_of_same level level' hlevel]
    | _ => simp [same] at h
  | .cpf target body, b, h => by
    cases b with
    | cpf target' body' =>
      simp only [same, Bool.and_eq_true] at h
      rw [eq_of_same target target' h.1, eq_of_same body body' h.2]
    | _ => simp [same] at h

theorem eq_of_sameAll : ∀ as bs : List Datum, sameAll as bs = true → as = bs
  | [], bs, h => by
    cases bs with
    | nil => rfl
    | cons b bs => simp [sameAll] at h
  | a :: as, bs, h => by
    cases bs with
    | nil => simp [sameAll] at h
    | cons b bs =>
      simp only [sameAll, Bool.and_eq_true] at h
      rw [eq_of_same a b h.1, eq_of_sameAll as bs h.2]

end

instance : DecidableEq Datum := fun a b =>
  decidable_of_iff (a.same b = true) ⟨eq_of_same a b, fun h => h ▸ same_self a⟩

end Datum

end Rddl
