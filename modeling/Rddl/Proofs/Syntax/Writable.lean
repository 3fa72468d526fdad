/-
  Rddl/Proofs/Syntax/Writable.lean
  ================================
  **What can be written.**

  Declarations over valid names can be written with lexemes that can be spelled
  (`CanBeWritten`).  How long the spellings of integers are is told along the way: an
  integer below the limit has a spelling that can be read.
-/
import Mathlib.Algebra.Group.Nat.Defs
import Rddl.Proofs.Scan.Layout
import Rddl.Proofs.Syntax.Document

namespace Rddl

open Lexeme

/-! ### Names and constants -/

/-- Whether a name is an identifier that is not reserved. -/
def isIdentifier (name : String) : Bool :=
  isWord name.toList && (Keyword.ofSpelling? name).isNone

def isEnumName (name : String) : Bool :=
  name.toList.head? == some '@' && isRun name.toList.tail && !name.toList.tail.isEmpty

def isRangeName (name : String) : Bool :=
  isIdentifier name ||
    [Keyword.intWord, Keyword.realWord, Keyword.boolWord].any fun k => k.spelling == name

/-- A constant that can be written.  A real number has to be the value of a decimal, or the
    negative of one. -/
def Constant.IsValid : Constant → Prop
  | .truth _ | .integer _ | .positiveInfinity | .negativeInfinity => True
  | .real value => ∃ size, (∃ w, Spelled (.real size) w) ∧ (value = size ∨ value = size.neg)
  | .enumValue name => isEnumName name = true
  | .ident name => isIdentifier name = true

theorem Keyword.ofSpelling?_spelling (k : Keyword) : ofSpelling? k.spelling = some k := by
  have hall : ∀ k ∈ all, ofSpelling? k.spelling = some k := by decide +kernel
  exact hall k (by cases k <;> decide)

namespace Lexeme

/-- A lexeme can be spelled, and not with too many digits if the condition holds. -/
def HasSpelling (S : Prop) (l : Lexeme) : Prop :=
  ∃ w, l.Spelled w ∧ (S → isOverlong w = false)

variable {S : Prop}

theorem HasSpelling.of_spelled {l : Lexeme} {w : List Char} (h : l.Spelled w)
    (hl : ∀ n, l ≠ .integer n) : HasSpelling S l :=
  ⟨w, h, fun _ => h.isOverlong_eq_false hl⟩

theorem spelled_ident {name : String} (h : isIdentifier name = true) :
    Spelled (.ident name) name.toList := by
  rw [isIdentifier, Bool.and_eq_true, Option.isNone_iff_eq_none] at h
  have hname : ofName name.toList = .ident name := by
    simp [ofName, h.2]
  rw [← hname]
  exact .word h.1

theorem spelled_enumValue {name : String} (h : isEnumName name = true) :
    Spelled (.enumValue name) name.toList := by
  rw [isEnumName, Bool.and_eq_true, Bool.and_eq_true, beq_iff_eq] at h
  obtain ⟨⟨hhead, hrun⟩, hne⟩ := h
  obtain ⟨run, hlist⟩ := List.head?_eq_some_iff.mp hhead
  rw [hlist, List.tail_cons] at hrun hne
  have hname : String.ofList ('@' :: run) = name := by rw [← hlist, String.ofList_toList]
  have hspelled := Spelled.enumValue hrun (by simpa using hne)
  rwa [hname, ← hlist] at hspelled

theorem spelled_keyword (k : Keyword) : Spelled (.keyword k) k.spelling.toList := by
  have hname : ofName k.spelling.toList = .keyword k := by
    simp [ofName, k.ofSpelling?_spelling]
  rw [← hname]
  exact .word (by cases k <;> rfl)

theorem spelled_toDigits (n : Nat) : Spelled (.integer n) (Nat.toDigits 10 n) := by
  have hvalue : digitsValue (Nat.toDigits 10 n) = n :=
    Nat.ofDigitChars_toDigits (by decide) (by decide)
  have hnumeral : isNumeral (Nat.toDigits 10 n) = true := by
    rw [isNumeral, Bool.and_eq_true, List.all_eq_true]
    refine ⟨by simp [Nat.toDigits_ne_nil], fun c hc => ?_⟩
    exact Nat.isDigit_of_mem_toDigits (by decide) (by decide) hc
  have hspelled := Spelled.integer hnumeral
  rwa [hvalue] at hspelled

/-- How a lexeme is spelled that is no real number. -/
def plainSpelling : Lexeme → List Char
  | .ident name | .variable name | .enumValue name => name.toList
  | .integer n => Nat.toDigits 10 n
  | .keyword k => k.spelling.toList
  | .symbol s => s.spelling.toList
  | .real _ => []

def isPlain : Lexeme → Bool
  | .ident name => isIdentifier name
  | .enumValue name => isEnumName name
  | .integer _ | .keyword _ | .symbol _ => true
  | .variable _ | .real _ => false

theorem allSpelled_plain {ls : List Lexeme} (h : ls.all isPlain = true) :
    AllSpelled ls (ls.map plainSpelling) := by
  refine List.forall₂_map_right_iff.mpr (List.forall₂_same.mpr fun l hl => ?_)
  have hplain := List.all_eq_true.mp h l hl
  cases l with
  | ident name => exact spelled_ident hplain
  | enumValue name => exact spelled_enumValue hplain
  | integer n => exact spelled_toDigits n
  | keyword k => exact spelled_keyword k
  | symbol s => exact .symbol s
  | «variable» name => cases hplain
  | real value => cases hplain

/-- The text of lexemes that are spelled plainly, with a blank behind each. -/
def plainText (ls : List Lexeme) : String := String.ofList (Layout.spaced (ls.map plainSpelling))

theorem layout_plainText (ls : List Lexeme) :
    Layout (ls.map plainSpelling) (plainText ls).toList := by
  rw [plainText, String.toList_ofList]
  exact Layout.of_spaced _

theorem HasSpelling.ident {name : String} (h : isIdentifier name = true) :
    HasSpelling S (.ident name) :=
  .of_spelled (spelled_ident h) (by simp)

theorem HasSpelling.enumValue {name : String} (h : isEnumName name = true) :
    HasSpelling S (.enumValue name) :=
  .of_spelled (spelled_enumValue h) (by simp)

@[simp] theorem HasSpelling.keyword (k : Keyword) : HasSpelling S (.keyword k) :=
  .of_spelled (spelled_keyword k) (by simp)

@[simp] theorem HasSpelling.symbol (s : Symbol) : HasSpelling S (.symbol s) :=
  .of_spelled (.symbol s) (by simp)

theorem HasSpelling.integer {n : Nat} (h : S → n < 10 ^ digitLimit) :
    HasSpelling S (.integer n) := by
  refine ⟨Nat.toDigits 10 n, spelled_toDigits n, fun hshort => ?_⟩
  have hlength := (Nat.length_toDigits_le_iff (by decide) (by decide)).mpr (h hshort)
  simp [isOverlong, Nat.not_lt.mpr hlength]

def HaveSpellings (S : Prop) (ls : List Lexeme) : Prop := ∀ l ∈ ls, HasSpelling S l

@[simp] theorem haveSpellings_nil : HaveSpellings S [] := by
  simp [HaveSpellings]

@[simp] theorem haveSpellings_cons {l : Lexeme} {ls : List Lexeme} :
    HaveSpellings S (l :: ls) ↔ HasSpelling S l ∧ HaveSpellings S ls :=
  List.forall_mem_cons

@[simp] theorem haveSpellings_append {ls ls' : List Lexeme} :
    HaveSpellings S (ls ++ ls') ↔ HaveSpellings S ls ∧ HaveSpellings S ls' :=
  List.forall_mem_append

theorem exists_allSpelled {ls : List Lexeme} (h : HaveSpellings S ls) :
    ∃ words, AllSpelled ls words ∧ (S → ∀ w ∈ words, isOverlong w = false) := by
  induction ls with
  | nil => exact ⟨[], .nil, by simp⟩
  | cons l ls ih =>
    rw [haveSpellings_cons] at h
    obtain ⟨w, hw, hshort⟩ := h.1
    obtain ⟨words, hwords, hshorts⟩ := ih h.2
    exact ⟨w :: words, .cons hw hwords, fun hS => by simpa [hshort hS] using hshorts hS⟩

@[simp] theorem haveSpellings_inBraces {ls : List Lexeme} :
    HaveSpellings S (inBraces ls) ↔ HaveSpellings S ls := by
  simp [inBraces]

end Lexeme

/-! ### Declarations that can be written -/

def isLabelName (name : String) : Bool := isIdentifier name || isEnumName name

def TypeDecl.isValid (d : TypeDecl) : Bool :=
  isIdentifier d.name &&
    match d.body with
    | .objects => true
    | .enumeration values => values.all isEnumName

def Role.constant? : Role → Option Constant
  | .nonFluent default => some default
  | .state default => some default
  | .action default => some default
  | .intermediate level => some level
  | .observation => none

def PVarDecl.isValid (d : PVarDecl) : Bool :=
  isIdentifier d.name && d.params.all (·.all isIdentifier) && isRangeName d.range

def ObjectsDecl.isValid (d : ObjectsDecl) : Bool :=
  isIdentifier d.type && !d.objects.isEmpty && d.objects.all isIdentifier

def Assignment.isValid (a : Assignment) : Bool :=
  isIdentifier a.name && a.args.all fun args => !args.isEmpty && args.all isLabelName

/-- A way to write something with lexemes that can be spelled. -/
def CanBeWritten (S : Prop) {α : Type} (W : α → List Lexeme → Prop) (a : α) : Prop :=
  ∃ ls, W a ls ∧ HaveSpellings S ls

namespace CanBeWritten

variable {S : Prop} {α : Type} {W : α → List Lexeme → Prop}

/-- A list is written item by item, with the same lexemes before each of them. -/
theorem listed {L : List α → List Lexeme → Prop} (sep : List Lexeme) (hsep : HaveSpellings S sep)
    (hnil : L [] []) (hcons : ∀ {a as l ls}, W a l → L as ls → L (a :: as) (sep ++ (l ++ ls)))
    {as : List α} (h : ∀ a ∈ as, CanBeWritten S W a) : CanBeWritten S L as := by
  induction as with
  | nil => exact ⟨[], hnil, by simp⟩
  | cons a as ih =>
    obtain ⟨ls, ha, hls⟩ := h a (by simp)
    obtain ⟨ls', has, hls'⟩ := ih fun b hb => h b (by simp [hb])
    exact ⟨_, hcons ha has, by simp [hsep, hls, hls']⟩

theorem commaTail {as : List α} (h : ∀ a ∈ as, CanBeWritten S W a) :
    CanBeWritten S (CommaTail W) as :=
  listed [.symbol .comma] (by simp) .nil .cons h

theorem commaList {as : List α} (hne : as ≠ []) (h : ∀ a ∈ as, CanBeWritten S W a) :
    CanBeWritten S (CommaList W) as := by
  obtain ⟨a, as, rfl⟩ := List.exists_cons_of_ne_nil hne
  obtain ⟨ls, ha, hls⟩ := h a (by simp)
  obtain ⟨ls', has, hls'⟩ := commaTail fun b hb => h b (List.mem_cons_of_mem a hb)
  exact ⟨_, .mk ha has, by simp [hls, hls']⟩

theorem looseList {as : List α} (h : ∀ a ∈ as, CanBeWritten S W a) :
    CanBeWritten S (LooseList W) as := by
  by_cases hne : as = []
  · rw [hne]
    exact ⟨[], .nil, by simp⟩
  · obtain ⟨ls, hlist, hls⟩ := commaList hne h
    cases hlist with
    | mk ha has => exact ⟨_, .plain ha has, hls⟩

theorem items {as : List α} (h : ∀ a ∈ as, CanBeWritten S W a) :
    CanBeWritten S (Items W) as :=
  listed [] (by simp) .nil .cons h

theorem ident {name : String} (h : isIdentifier name = true) :
    CanBeWritten S IdentWritten name :=
  ⟨_, .mk name, by simpa using HasSpelling.ident h⟩

theorem enumValue {name : String} (h : isEnumName name = true) :
    CanBeWritten S EnumValueWritten name :=
  ⟨_, .mk name, by simpa using HasSpelling.enumValue h⟩

theorem label {name : String} (h : isLabelName name = true) :
    CanBeWritten S LabelWritten name := by
  rw [isLabelName, Bool.or_eq_true] at h
  rcases h with h | h
  · exact ⟨_, .ident name, by simpa using HasSpelling.ident h⟩
  · exact ⟨_, .enumValue name, by simpa using HasSpelling.enumValue h⟩

theorem constant {k : Constant} (h : k.IsValid)
    (hshort : S → ∀ n, k = .integer n → n.natAbs < 10 ^ digitLimit) :
    CanBeWritten S Constant.Written k := by
  cases k with
  | truth value => exact ⟨_, .truth value, by simp⟩
  -- a negative number is written with a minus sign before its absolute value
  | integer value =>
    have hword : HasSpelling S (.integer value.natAbs) := .integer fun hs => hshort hs _ rfl
    rcases Int.natAbs_eq value with heq | heq
    · rw [heq]
      exact ⟨_, .integer _, by simpa using hword⟩
    · rw [heq]
      exact ⟨_, .negatedInteger _, by simpa using hword⟩
  | real value =>
    obtain ⟨size, ⟨w, hw⟩, hvalue⟩ := h
    have hword : HasSpelling S (.real size) := .of_spelled hw (by simp)
    rcases hvalue with rfl | rfl
    · exact ⟨_, .real _, by simpa using hword⟩
    · exact ⟨_, .negatedReal _, by simpa using hword⟩
  | positiveInfinity => exact ⟨_, .positiveInfinity, by simp⟩
  | negativeInfinity => exact ⟨_, .negativeInfinity, by simp⟩
  | enumValue name => exact ⟨_, .enumValue name, by simpa using HasSpelling.enumValue h⟩
  | ident name => exact ⟨_, .ident name, by simpa using HasSpelling.ident h⟩

theorem typeDecl {d : TypeDecl} (h : d.isValid = true) :
    CanBeWritten S TypeDecl.Written d := by
  obtain ⟨name, body⟩ := d
  rw [TypeDecl.isValid, Bool.and_eq_true] at h
  obtain ⟨hname, hbody⟩ := h
  cases body with
  | objects => exact ⟨_, .objects name, by simpa using HasSpelling.ident hname⟩
  | enumeration values =>
    obtain ⟨ls, hvalues, hls⟩ := looseList fun v hv =>
      enumValue (S := S) (List.all_eq_true.mp hbody v hv)
    refine ⟨_, .enumeration name hvalues, ?_⟩
    simpa [HasSpelling.ident hname] using hls

theorem params {params : Option (List String)}
    (h : params.all (·.all isIdentifier) = true) : CanBeWritten S ParamsWritten params := by
  cases params with
  | none => exact ⟨_, .none, by simp⟩
  | some types =>
    obtain ⟨ls, htypes, hls⟩ := looseList fun t ht =>
      ident (S := S) (List.all_eq_true.mp h t ht)
    exact ⟨_, .some htypes, by simpa using hls⟩

theorem range {range : String} (h : isRangeName range = true) :
    ∃ l, RangeWritten range l ∧ HasSpelling S l := by
  simp only [isRangeName, Bool.or_eq_true, List.any_cons, List.any_nil, Bool.or_false,
    beq_iff_eq] at h
  rcases h with hname | rfl | rfl | rfl
  · exact ⟨_, .ident range, .ident hname⟩
  · exact ⟨_, .int, .keyword _⟩
  · exact ⟨_, .real, .keyword _⟩
  · exact ⟨_, .bool, .keyword _⟩

theorem role {r : Role} (h : ∀ k, r.constant? = some k → CanBeWritten S Constant.Written k) :
    CanBeWritten S Role.Written r := by
  cases r with
  | observation => exact ⟨_, .observation, by simp⟩
  | nonFluent default =>
    obtain ⟨ls, hdefault, hls⟩ := h default rfl
    exact ⟨_, .nonFluent hdefault, by simpa using hls⟩
  | state default =>
    obtain ⟨ls, hdefault, hls⟩ := h default rfl
    exact ⟨_, .state hdefault, by simpa using hls⟩
  | action default =>
    obtain ⟨ls, hdefault, hls⟩ := h default rfl
    exact ⟨_, .action hdefault, by simpa using hls⟩
  | intermediate level =>
    obtain ⟨ls, hlevel, hls⟩ := h level rfl
    exact ⟨_, .intermediate hlevel, by simpa using hls⟩

theorem pvarDecl {d : PVarDecl} (h : d.isValid = true)
    (hconstant : ∀ k, d.role.constant? = some k → CanBeWritten S Constant.Written k) :
    CanBeWritten S PVarDecl.Written d := by
  obtain ⟨name, params, range, role⟩ := d
  rw [PVarDecl.isValid, Bool.and_eq_true, Bool.and_eq_true] at h
  obtain ⟨⟨hname, hparams⟩, hrange⟩ := h
  obtain ⟨ps, hparams, hps⟩ := CanBeWritten.params (S := S) hparams
  obtain ⟨r, hrange, hr⟩ := CanBeWritten.range (S := S) hrange
  obtain ⟨rs, hrole, hrs⟩ := CanBeWritten.role hconstant
  exact ⟨_, .mk name hparams hrange hrole, by simp [HasSpelling.ident hname, hps, hr, hrs]⟩

theorem objectsDecl {d : ObjectsDecl} (h : d.isValid = true) :
    CanBeWritten S ObjectsDecl.Written d := by
  obtain ⟨type, objects⟩ := d
  rw [ObjectsDecl.isValid, Bool.and_eq_true, Bool.and_eq_true] at h
  obtain ⟨⟨htype, hne⟩, hobjects⟩ := h
  obtain ⟨ls, hobjects, hls⟩ := commaList (by simpa using hne) fun o ho =>
    ident (S := S) (List.all_eq_true.mp hobjects o ho)
  exact ⟨_, .mk type hobjects, by simpa [HasSpelling.ident htype] using hls⟩

theorem assignment {a : Assignment} (h : a.isValid = true)
    (hvalue : CanBeWritten S Constant.Written a.value) :
    CanBeWritten S Assignment.Written a := by
  obtain ⟨name, args, value⟩ := a
  rw [Assignment.isValid, Bool.and_eq_true] at h
  obtain ⟨hname, hargs⟩ := h
  obtain ⟨vs, hvalue, hvs⟩ := hvalue
  obtain ⟨as, hargs, has⟩ : CanBeWritten S ArgsWritten args := by
    cases args with
    | none => exact ⟨_, .none, by simp⟩
    | some args =>
      rw [Option.all_some, Bool.and_eq_true] at hargs
      obtain ⟨ls, hargs, hls⟩ := commaList (by simpa using hargs.1) fun x hx =>
        label (S := S) (List.all_eq_true.mp hargs.2 x hx)
      exact ⟨_, .some hargs, by simpa using hls⟩
  exact ⟨_, .valued name hargs hvalue, by simp [HasSpelling.ident hname, has, hvs]⟩

end CanBeWritten

theorem NonFluentsSection.Written.of_values {as : List Assignment} {ls : List Lexeme}
    (hne : as ≠ []) (h : Items Assignment.Written as ls) :
    NonFluentsSection.Written (.values as) (.keyword .nonFluents :: inBraces ls) := by
  obtain ⟨a, as, rfl⟩ := List.exists_cons_of_ne_nil hne
  exact .values h

theorem InstanceSection.Written.of_initial {as : List Assignment} {ls : List Lexeme}
    (hne : as ≠ []) (h : Items Assignment.Written as ls) :
    InstanceSection.Written (.initialState as) (.keyword .initState :: inBraces ls) := by
  obtain ⟨a, as, rfl⟩ := List.exists_cons_of_ne_nil hne
  exact .initialState h

end Rddl
