/-
  Rddl/Table.lean
  ===============
  **Tables in insertion order.**

  A key keeps the place where it was first inserted and has the value inserted
  last.
-/

namespace Rddl

/-- A finite map with its entries in the order of first insertion. -/
structure Table (κ α : Type) where
  entries : List (κ × α)
deriving Repr

namespace Table

variable {κ α : Type}

def empty : Table κ α := ⟨[]⟩

instance : Inhabited (Table κ α) := ⟨empty⟩

def keys (t : Table κ α) : List κ := t.entries.map Prod.fst

def values (t : Table κ α) : List α := t.entries.map Prod.snd

/-- Entries with the value under a key replaced, or added at the end. -/
def insertEntry (same : κ → κ → Bool) (key : κ) (value : α) : List (κ × α) → List (κ × α)
  | [] => [(key, value)]
  | (k, v) :: rest =>
    if same k key then (k, value) :: rest else (k, v) :: insertEntry same key value rest

def findEntry? (same : κ → κ → Bool) (key : κ) : List (κ × α) → Option α
  | [] => none
  | (k, v) :: rest => if same k key then some v else findEntry? same key rest

def insert [BEq κ] (t : Table κ α) (key : κ) (value : α) : Table κ α :=
  ⟨insertEntry (· == ·) key value t.entries⟩

def find? [BEq κ] (t : Table κ α) (key : κ) : Option α := findEntry? (· == ·) key t.entries

def contains [BEq κ] (t : Table κ α) (key : κ) : Bool := (t.find? key).isSome

def ofList [BEq κ] (entries : List (κ × α)) : Table κ α :=
  entries.foldl (fun t e => t.insert e.1 e.2) empty

end Table

end Rddl
