/-
  Rddl/Proofs/Collections.lean
  ============================
  **Tables and sorted lists.**

  A table that is filled entry by entry holds under each key the last value given for
  it (`find?_foldl_insert`), and when no key is given twice it holds the entries as
  they were given (`entries_ofList`).  Sorting keeps the items of a list and puts them
  in order (`perm_sortWith`, `pairwise_sortNames`).  A computation that may fail gives a
  result exactly if each of its steps does (`except_bind_eq_ok`).
-/
import Mathlib.Data.List.Forall2
import Mathlib.Data.List.Induction
import Mathlib.Data.List.Sort
import Mathlib.Data.String.Basic
import Rddl.Sorting
import Rddl.Table

namespace Rddl

theorem except_bind_eq_ok {ε α β : Type} {x : Except ε α} {f : α → Except ε β} {b : β} :
    x >>= f = .ok b ↔ ∃ a, x = .ok a ∧ f a = .ok b := by
  cases x <;> simp [bind, Except.bind]

theorem toOption_eq_some {ε α : Type} {x : Except ε α} {a : α} :
    x.toOption = some a ↔ x = .ok a := by
  cases x <;> simp [Except.toOption]

/-- A list is known from its image under a map that tells its items apart. -/
theorem eq_of_map_eq {α β : Type} {f : α → β} {as bs : List α}
    (hinj : ∀ a ∈ as, ∀ b ∈ bs, f a = f b → a = b) (h : as.map f = bs.map f) : as = bs := by
  induction as generalizing bs with
  | nil => exact (List.map_eq_nil_iff.mp h.symm).symm
  | cons a as ih =>
    cases bs with
    | nil => cases h
    | cons b bs =>
      rw [List.map_cons, List.map_cons, List.cons.injEq] at h
      rw [hinj a (by simp) b (by simp) h.1,
        ih (fun x hx y hy => hinj x (by simp [hx]) y (by simp [hy])) h.2]

theorem exists_of_mem_filterMapM {ε α β : Type} {f : α → Except ε (Option β)} {xs : List α}
    {ys : List β} (h : xs.filterMapM f = .ok ys) {y : β} (hy : y ∈ ys) :
    ∃ x ∈ xs, f x = .ok (some y) := by
  induction xs generalizing ys with
  | nil =>
    cases h
    simp at hy
  | cons x xs ih =>
    rw [List.filterMapM_cons, except_bind_eq_ok] at h
    obtain ⟨y?, hx, h⟩ := h
    cases y? with
    -- nothing is kept of this item
    | none =>
      obtain ⟨x', hmem, hx'⟩ := ih h hy
      exact ⟨x', by simp [hmem], hx'⟩
    | some y' =>
      obtain ⟨ys', hys', h⟩ := except_bind_eq_ok.mp h
      cases h
      rcases List.mem_cons.mp hy with rfl | hy
      · exact ⟨x, by simp, hx⟩
      · obtain ⟨x', hmem, hx'⟩ := ih hys' hy
        exact ⟨x', by simp [hmem], hx'⟩

theorem filterMapM_map_eq_ok {ε α β γ : Type} {f : β → Except ε (Option γ)} {e : α → β}
    {g : α → Option γ} {xs : List α} (h : ∀ x ∈ xs, f (e x) = .ok (g x)) :
    (xs.map e).filterMapM f = .ok (xs.filterMap g) := by
  induction xs with
  | nil => rfl
  | cons x xs ih =>
    rw [List.map_cons, List.filterMapM_cons, h x List.mem_cons_self,
      ih fun y hy => h y (List.mem_cons_of_mem x hy)]
    cases hx : g x with
    | none =>
      rw [List.filterMap_cons_none hx]
      rfl
    | some y =>
      rw [List.filterMap_cons_some hx]
      rfl

theorem mapM_eq_ok_iff {ε α β : Type} {f : α → Except ε β} {xs : List α} {ys : List β} :
    xs.mapM f = .ok ys ↔ List.Forall₂ (fun x y => f x = .ok y) xs ys := by
  induction xs generalizing ys with
  | nil =>
    rw [List.mapM_nil, List.forall₂_nil_left_iff]
    constructor
    · intro h
      cases h
      rfl
    · rintro rfl
      rfl
  | cons x xs ih =>
    rw [List.mapM_cons, except_bind_eq_ok, List.forall₂_cons_left_iff]
    simp only [except_bind_eq_ok, ih]
    constructor
    · rintro ⟨y, hy, ys, hys, h⟩
      cases h
      exact ⟨y, ys, hy, hys, rfl⟩
    · rintro ⟨y, ys, hy, hys, rfl⟩
      exact ⟨y, hy, ys, hys, rfl⟩

theorem exists_getElem?_of_forall₂ {α β : Type} {R : α → β → Prop} {xs : List α} {ys : List β}
    (h : List.Forall₂ R xs ys) {i : Nat} {x : α} (hx : xs[i]? = some x) :
    ∃ y, ys[i]? = some y ∧ R x y := by
  induction h generalizing i with
  | nil => simp at hx
  | cons hy _ ih =>
    cases i with
    | zero =>
      cases hx
      exact ⟨_, rfl, hy⟩
    | succ i => exact ih hx

theorem exists_mem_of_forall₂ {α β : Type} {R : α → β → Prop} {xs : List α} {ys : List β}
    (h : List.Forall₂ R xs ys) {x : α} (hx : x ∈ xs) : ∃ y ∈ ys, R x y := by
  obtain ⟨i, hi⟩ := List.mem_iff_getElem?.mp hx
  obtain ⟨y, hy, hxy⟩ := exists_getElem?_of_forall₂ h hi
  exact ⟨y, List.mem_of_getElem? hy, hxy⟩

theorem exists_of_mem_mapM {ε α β : Type} {f : α → Except ε β} {xs : List α} {ys : List β}
    (h : xs.mapM f = .ok ys) {y : β} (hy : y ∈ ys) : ∃ x ∈ xs, f x = .ok y :=
  exists_mem_of_forall₂ (mapM_eq_ok_iff.mp h).flip hy

theorem exists_ok_of_mapM {ε α β : Type} {f : α → Except ε β} {xs : List α} {ys : List β}
    (h : xs.mapM f = .ok ys) {x : α} (hx : x ∈ xs) : ∃ y ∈ ys, f x = .ok y :=
  exists_mem_of_forall₂ (mapM_eq_ok_iff.mp h) hx

theorem exists_mapM_eq_ok {ε α β : Type} {f : α → Except ε β} {xs : List α}
    (h : ∀ x ∈ xs, ∃ y, f x = .ok y) : ∃ ys, xs.mapM f = .ok ys := by
  induction xs with
  | nil => exact ⟨[], rfl⟩
  | cons x xs ih =>
    obtain ⟨y, hy⟩ := h x List.mem_cons_self
    obtain ⟨ys, hys⟩ := ih fun x' hx' => h x' (List.mem_cons_of_mem x hx')
    exact ⟨y :: ys, mapM_eq_ok_iff.mpr (.cons hy (mapM_eq_ok_iff.mp hys))⟩

theorem exists_mapM_eq_ok_iff {ε α β : Type} {f : α → Except ε β} {xs : List α} :
    (∃ ys, xs.mapM f = .ok ys) ↔ ∀ x ∈ xs, ∃ y, f x = .ok y := by
  constructor
  · rintro ⟨ys, hys⟩ x hx
    obtain ⟨y, -, hy⟩ := exists_ok_of_mapM hys hx
    exact ⟨y, hy⟩
  · exact exists_mapM_eq_ok

theorem mapM_map_eq_ok {ε α β γ : Type} {f : β → Except ε γ} {e : α → β} {g : α → γ}
    {xs : List α} (h : ∀ x ∈ xs, f (e x) = .ok (g x)) :
    (xs.map e).mapM f = .ok (xs.map g) := by
  rw [mapM_eq_ok_iff, List.forall₂_map_left_iff, List.forall₂_map_right_iff, List.forall₂_same]
  exact h

theorem mapM_zip_eq_ok {ε α β γ : Type} {f : α → Except ε β} {f' : α → Except ε γ}
    {g : α × β → γ} {xs : List α} {ys : List β} (h : xs.mapM f = .ok ys)
    (hg : ∀ x y, f x = .ok y → f' x = .ok (g (x, y))) :
    xs.mapM f' = .ok ((xs.zip ys).map g) := by
  rw [mapM_eq_ok_iff] at h ⊢
  induction h with
  | nil => exact .nil
  | cons hx _ ih => exact .cons (hg _ _ hx) ih

/-! ### Tables -/

namespace Table

variable {κ α : Type} [BEq κ]

section PartialEquiv

variable [PartialEquivBEq κ]

theorem findEntry?_congr {key key' : κ} (h : (key == key') = true) (entries : List (κ × α)) :
    findEntry? (· == ·) key entries = findEntry? (· == ·) key' entries := by
  induction entries with
  | nil => rfl
  | cons e rest ih =>
    obtain ⟨k, v⟩ := e
    have hsame : (k == key) = (k == key') := BEq.congr_right h
    simp only [ findEntry?, hsame, ih]

/-- Under equal keys the same is found. -/
theorem find?_congr {key key' : κ} (h : (key == key') = true) (t : Table κ α) :
    t.find? key = t.find? key' :=
  findEntry?_congr h t.entries

theorem findEntry?_insertEntry (key key' : κ) (value : α) (entries : List (κ × α)) :
    findEntry? (· == ·) key' (insertEntry (· == ·) key value entries) =
      if key == key' then some value else findEntry? (· == ·) key' entries := by
  induction entries with
  | nil => simp [insertEntry, findEntry?]
  | cons e rest ih =>
    obtain ⟨k, v⟩ := e
    by_cases hk : (k == key) = true
    · have hsame : (k == key') = (key == key') := BEq.congr_left hk
      by_cases hkey : (key == key') = true <;> simp [insertEntry, findEntry?, hk, hsame, hkey]
    · by_cases hk' : (k == key') = true
      · have hkey : ¬ (key == key') = true := by
          intro hkey
          exact hk (BEq.trans hk' (BEq.symm hkey))
        simp [insertEntry, findEntry?, hk, hk', hkey]
      · simp [insertEntry, findEntry?, hk, hk', ih]

theorem find?_insert (t : Table κ α) (key key' : κ) (value : α) :
    (t.insert key value).find? key' = if key == key' then some value else t.find? key' :=
  findEntry?_insertEntry key key' value t.entries

/-- Of the values given for a key the last one counts. -/
theorem find?_foldl_insert (t : Table κ α) (entries : List (κ × α)) (key : κ) :
    (entries.foldl (fun t e => t.insert e.1 e.2) t).find? key =
      ((entries.reverse.find? fun e => e.1 == key).map Prod.snd).or (t.find? key) := by
  induction entries generalizing t with
  | nil => simp
  | cons e rest ih =>
    rw [List.foldl_cons, ih, find?_insert, List.reverse_cons, List.find?_append]
    cases rest.reverse.find? fun e => e.1 == key with
    | some found => simp
    | none =>
      by_cases hkey : (e.1 == key) = true <;> simp [hkey]

theorem find?_ofList (entries : List (κ × α)) (key : κ) :
    (ofList entries).find? key = (entries.reverse.find? fun e => e.1 == key).map Prod.snd := by
  rw [ofList, find?_foldl_insert]
  simp [find?, empty, findEntry?]

theorem find?_ofList_cons (e : κ × α) (entries : List (κ × α)) (key : κ) :
    (ofList (e :: entries)).find? key =
      ((ofList entries).find? key).or (if e.1 == key then some e.2 else none) := by
  rw [find?_ofList, find?_ofList, List.reverse_cons, List.find?_append]
  cases entries.reverse.find? fun e => e.1 == key with
  | some found => simp
  | none => by_cases hkey : (e.1 == key) = true <;> simp [hkey]

end PartialEquiv

variable [LawfulBEq κ]

theorem mem_of_find?_ofList {entries : List (κ × α)} {key : κ} {value : α}
    (h : (ofList entries).find? key = some value) : (key, value) ∈ entries := by
  rw [find?_ofList, Option.map_eq_some_iff] at h
  obtain ⟨⟨k, v⟩, hfind, rfl⟩ := h
  have hkey : k = key := by simpa using List.find?_some hfind
  exact hkey ▸ List.mem_reverse.mp (List.mem_of_find?_eq_some hfind)

theorem isSome_find?_ofList {entries : List (κ × α)} {key : κ} :
    ((ofList entries).find? key).isSome = true ↔ key ∈ entries.map Prod.fst := by
  rw [find?_ofList, Option.isSome_map, List.find?_isSome]
  simp

theorem insertEntry_of_notMem {key : κ} {value : α} {entries : List (κ × α)}
    (h : key ∉ entries.map Prod.fst) :
    insertEntry (· == ·) key value entries = entries ++ [(key, value)] := by
  induction entries with
  | nil => rfl
  | cons e rest ih =>
    obtain ⟨k, v⟩ := e
    simp only [List.map_cons, List.mem_cons, not_or] at h
    simp [insertEntry, Ne.symm h.1, ih h.2]

/-- Entries whose keys are all different are held as they are given. -/
theorem entries_foldl_insert {t : Table κ α} {entries : List (κ × α)}
    (h : (t.keys ++ entries.map Prod.fst).Nodup) :
    (entries.foldl (fun t e => t.insert e.1 e.2) t).entries = t.entries ++ entries := by
  induction entries generalizing t with
  | nil => simp
  | cons e rest ih =>
    have hnew : e.1 ∉ t.entries.map Prod.fst := by
      have hdisjoint := (List.nodup_append.mp h).2.2
      intro hmem
      exact hdisjoint _ hmem e.1 (by simp) rfl
    have hinsert : (t.insert e.1 e.2).entries = t.entries ++ [e] := insertEntry_of_notMem hnew
    rw [List.foldl_cons, ih, hinsert]
    · simp
    · simpa [keys, hinsert] using h

theorem entries_ofList {entries : List (κ × α)} (h : (entries.map Prod.fst).Nodup) :
    (ofList entries).entries = entries := by
  rw [ofList, entries_foldl_insert (by simpa [empty, keys] using h)]
  rfl

theorem mem_entries_of_find? {t : Table κ α} {key : κ} {value : α}
    (h : t.find? key = some value) : (key, value) ∈ t.entries := by
  obtain ⟨entries⟩ := t
  simp only [find?] at h
  induction entries with
  | nil => simp [ findEntry?] at h
  | cons e rest ih =>
    obtain ⟨k, v⟩ := e
    by_cases hk : k = key
    · simp only [ findEntry?, hk, beq_self_eq_true, if_true, Option.some.injEq] at h
      simp [hk, h]
    · simp only [ findEntry?, beq_eq_false_iff_ne.mpr hk, Bool.false_eq_true, if_false] at h
      exact List.mem_cons_of_mem _ (ih h)

theorem mem_keys_of_find? {t : Table κ α} {key : κ} {value : α} (h : t.find? key = some value) :
    key ∈ t.keys :=
  List.mem_map.mpr ⟨(key, value), mem_entries_of_find? h, rfl⟩

/-- Where no key stands twice, the entries are what is found under the keys. -/
theorem mem_entries_iff_find? {t : Table κ α} (hkeys : t.keys.Nodup) {key : κ} {value : α} :
    (key, value) ∈ t.entries ↔ t.find? key = some value := by
  refine ⟨fun h => ?_, mem_entries_of_find?⟩
  obtain ⟨entries⟩ := t
  simp only [keys, find?] at hkeys h ⊢
  induction entries with
  | nil => simp at h
  | cons e rest ih =>
    obtain ⟨k, v⟩ := e
    simp only [List.map_cons, List.nodup_cons] at hkeys
    rcases List.mem_cons.mp h with heq | h
    · cases heq
      simp [ findEntry?]
    · have hne : k ≠ key := by
        rintro rfl
        exact hkeys.1 (List.mem_map.mpr ⟨_, h, rfl⟩)
      simpa [ findEntry?, hne] using ih hkeys.2 h

theorem mem_keys_insertEntry {key k : κ} {value : α} {entries : List (κ × α)} :
    k ∈ (insertEntry (· == ·) key value entries).map Prod.fst ↔
      k = key ∨ k ∈ entries.map Prod.fst := by
  induction entries with
  | nil => simp [insertEntry]
  | cons e rest ih =>
    obtain ⟨k', v⟩ := e
    by_cases hk : k' = key
    · subst hk
      simp [insertEntry]
    · simp only [insertEntry, beq_eq_false_iff_ne.mpr hk, Bool.false_eq_true, if_false,
        List.map_cons, List.mem_cons, ih]
      exact or_left_comm

theorem keys_insertEntry_of_mem {key : κ} {value : α} {entries : List (κ × α)}
    (h : key ∈ entries.map Prod.fst) :
    (insertEntry (· == ·) key value entries).map Prod.fst = entries.map Prod.fst := by
  induction entries with
  | nil => simp at h
  | cons e rest ih =>
    obtain ⟨k, v⟩ := e
    by_cases hk : k = key
    · simp [insertEntry, hk]
    · have hrest : key ∈ rest.map Prod.fst := by simpa [Ne.symm hk] using h
      simp [insertEntry, hk, ih hrest]

theorem contains_iff_mem_keys {t : Table κ α} {key : κ} :
    t.contains key = true ↔ key ∈ t.keys := by
  obtain ⟨entries⟩ := t
  simp only [contains, find?, keys]
  induction entries with
  | nil => simp [ findEntry?]
  | cons e rest ih =>
    obtain ⟨k, v⟩ := e
    by_cases hk : k = key
    · simp [ findEntry?, hk]
    · simp [ findEntry?, hk, Ne.symm hk, ← ih]

theorem nodup_keys_insertEntry {key : κ} {value : α} {entries : List (κ × α)}
    (h : (entries.map Prod.fst).Nodup) :
    ((insertEntry (· == ·) key value entries).map Prod.fst).Nodup := by
  induction entries with
  | nil => simp [insertEntry]
  | cons e rest ih =>
    obtain ⟨k, v⟩ := e
    simp only [List.map_cons, List.nodup_cons] at h
    by_cases hk : k = key
    · subst hk
      simpa [insertEntry] using h
    · simp only [insertEntry, beq_eq_false_iff_ne.mpr hk, Bool.false_eq_true, if_false,
        List.map_cons, List.nodup_cons, mem_keys_insertEntry, not_or]
      exact ⟨⟨hk, h.1⟩, ih h.2⟩

/-- An item that is added to the list under a key is added to all of them. -/
theorem perm_values_insert (t : Table κ (List α)) (key : κ) (x : α) :
    (t.insert key ((t.find? key).getD [] ++ [x])).values.flatten.Perm
      (t.values.flatten ++ [x]) := by
  obtain ⟨entries⟩ := t
  simp only [insert, find?, values]
  induction entries with
  | nil => simp [ findEntry?, insertEntry]
  | cons e rest ih =>
    obtain ⟨k, xs⟩ := e
    by_cases hk : k = key
    · simp only [ findEntry?, insertEntry, hk, BEq.rfl, if_true, Option.getD_some, List.map_cons,
        List.flatten_cons, List.append_assoc]
      exact List.perm_append_comm.append_left xs
    · simp only [ findEntry?, insertEntry, beq_eq_false_iff_ne.mpr hk, Bool.false_eq_true, if_false,
        List.map_cons, List.flatten_cons, List.append_assoc]
      exact ih.append_left xs

omit [LawfulBEq κ] in
theorem ofList_append (entries new : List (κ × α)) :
    ofList (entries ++ new) = new.foldl (fun t e => t.insert e.1 e.2) (ofList entries) := by
  simp [ofList]

theorem nodup_keys_ofList (entries : List (κ × α)) : (ofList entries).keys.Nodup := by
  induction entries using List.reverseRecOn with
  | nil => simp [ofList, empty, keys]
  | append_singleton entries e ih =>
    rw [ofList_append]
    exact nodup_keys_insertEntry ih

omit [LawfulBEq κ] in
/-- What is found among more entries is found in the later ones first. -/
theorem find?_ofList_append [PartialEquivBEq κ] (entries new : List (κ × α)) (key : κ) :
    (ofList (entries ++ new)).find? key =
      ((ofList new).find? key).or ((ofList entries).find? key) := by
  rw [ofList_append, find?_foldl_insert, find?_ofList new]

theorem mem_keys_ofList {entries : List (κ × α)} {key : κ} :
    key ∈ (ofList entries).keys ↔ key ∈ entries.map Prod.fst := by
  rw [← isSome_find?_ofList]
  constructor
  · intro hmem
    obtain ⟨⟨k, value⟩, hentry, rfl⟩ := List.mem_map.mp hmem
    rw [(mem_entries_iff_find? (nodup_keys_ofList entries)).mp hentry]
    rfl
  · intro hsome
    obtain ⟨value, hvalue⟩ := Option.isSome_iff_exists.mp hsome
    exact mem_keys_of_find? hvalue

/-- A key that is there is not moved by a later one. -/
theorem insertEntry_comm {key key' : κ} {value value' : α} {entries : List (κ × α)}
    (hne : key ≠ key') (hmem : key ∈ entries.map Prod.fst) :
    insertEntry (· == ·) key value (insertEntry (· == ·) key' value' entries) =
      insertEntry (· == ·) key' value' (insertEntry (· == ·) key value entries) := by
  induction entries with
  | nil => simp at hmem
  | cons e rest ih =>
    obtain ⟨k, v⟩ := e
    by_cases hk : k = key
    · subst hk
      simp [insertEntry, hne]
    · have hrest : key ∈ rest.map Prod.fst := by simpa [Ne.symm hk] using hmem
      by_cases hk' : k = key'
      · subst hk'
        simp [insertEntry, hk]
      · simp [insertEntry, hk, hk', ih hrest]

theorem insertEntry_insertEntry (key : κ) (value value' : α) (entries : List (κ × α)) :
    insertEntry (· == ·) key value (insertEntry (· == ·) key value' entries) =
      insertEntry (· == ·) key value entries := by
  induction entries with
  | nil => simp [insertEntry]
  | cons e rest ih =>
    obtain ⟨k, v⟩ := e
    by_cases hk : k = key
    · simp [insertEntry, hk]
    · simp [insertEntry, hk, ih]

theorem foldl_insert_insert {t : Table κ α} {key : κ} {value : α} {entries : List (κ × α)}
    (hmem : key ∈ t.keys) (hnew : key ∉ entries.map Prod.fst) :
    entries.foldl (fun t e => t.insert e.1 e.2) (t.insert key value) =
      (entries.foldl (fun t e => t.insert e.1 e.2) t).insert key value := by
  induction entries generalizing t with
  | nil => rfl
  | cons e rest ih =>
    simp only [List.map_cons, List.mem_cons, not_or] at hnew
    have hcomm : (t.insert key value).insert e.1 e.2 = (t.insert e.1 e.2).insert key value := by
      simp only [insert, insertEntry_comm hnew.1 hmem]
    rw [List.foldl_cons, List.foldl_cons, hcomm]
    exact ih (mem_keys_insertEntry.mpr (.inr hmem)) hnew.2

theorem foldl_insert_insertEntry {t : Table κ α} {key : κ} {value : α} {entries : List (κ × α)}
    (h : (entries.map Prod.fst).Nodup) :
    (insertEntry (· == ·) key value entries).foldl (fun t e => t.insert e.1 e.2) t =
      (entries.foldl (fun t e => t.insert e.1 e.2) t).insert key value := by
  induction entries generalizing t with
  | nil => rfl
  | cons e rest ih =>
    obtain ⟨k, v⟩ := e
    simp only [List.map_cons, List.nodup_cons] at h
    by_cases hk : k = key
    · -- the new value comes in at the place of the old one, but may as well come last
      subst hk
      have hmem : k ∈ (t.insert k v).keys := mem_keys_insertEntry.mpr (.inl rfl)
      have htwice : (t.insert k v).insert k value = t.insert k value := by
        simp only [insert, insertEntry_insertEntry]
      simp only [insertEntry, BEq.rfl, if_true, List.foldl_cons]
      rw [← foldl_insert_insert hmem h.1, htwice]
    · simp only [insertEntry, beq_eq_false_iff_ne.mpr hk, Bool.false_eq_true, if_false,
        List.foldl_cons]
      exact ih h.2

/-- Setting what a table holds is setting what it was made from. -/
theorem foldl_insert_entries_ofList (t : Table κ α) (entries : List (κ × α)) :
    (ofList entries).entries.foldl (fun t e => t.insert e.1 e.2) t =
      entries.foldl (fun t e => t.insert e.1 e.2) t := by
  induction entries using List.reverseRecOn with
  | nil => rfl
  | append_singleton entries e ih =>
    rw [ofList_append, List.foldl_append, ← ih]
    exact foldl_insert_insertEntry (nodup_keys_ofList entries)

end Table

/-! ### Sorting -/

section Sorting

variable {α : Type}

theorem insertSorted_eq (r : α → α → Prop) [DecidableRel r] (x : α) (xs : List α) :
    insertSorted (fun a b => decide (r a b)) x xs = xs.orderedInsert r x := by
  induction xs with
  | nil => rfl
  | cons y ys ih => simp [insertSorted, List.orderedInsert, ih]

theorem sortWith_eq (r : α → α → Prop) [DecidableRel r] (xs : List α) :
    sortWith (fun a b => decide (r a b)) xs = xs.insertionSort r := by
  induction xs with
  | nil => rfl
  | cons x xs ih => rw [sortWith, ih, insertSorted_eq, List.insertionSort_cons]

theorem perm_sortWith (le : α → α → Bool) (xs : List α) : (sortWith le xs).Perm xs := by
  have hsort := sortWith_eq (fun a b => le a b = true) xs
  simp only [Bool.decide_eq_true] at hsort
  rw [hsort]
  exact List.perm_insertionSort _ xs

/-- Items may be changed after sorting or before, as long as the order is the same. -/
theorem map_sortWith {β : Type} {le : α → α → Bool} {le' : β → β → Bool} (f : α → β) {xs : List α}
    (h : ∀ x ∈ xs, ∀ y ∈ xs, le x y = le' (f x) (f y)) :
    (sortWith le xs).map f = sortWith le' (xs.map f) := by
  have hsort := sortWith_eq (fun x y => le x y = true) xs
  have hsort' := sortWith_eq (fun x y => le' x y = true) (xs.map f)
  simp only [Bool.decide_eq_true] at hsort hsort'
  rw [hsort, hsort']
  apply List.map_insertionSort
  intro x hx y hy
  rw [h x hx y hy]

/-- Sorting by names and taking the names is sorting the names. -/
theorem map_sortWith_name (name : α → String) (xs : List α) :
    (sortWith (fun a b => decide (name a ≤ name b)) xs).map name = sortNames (xs.map name) :=
  map_sortWith name fun _ _ _ _ => rfl

theorem pairwise_sortNames (names : List String) : (sortNames names).Pairwise (· ≤ ·) := by
  rw [sortNames, sortWith_eq]
  exact List.pairwise_insertionSort (· ≤ ·) names

/-- A sorted list of names is the sorted form of every rearrangement of it. -/
theorem sortNames_eq_of_perm {names sorted : List String} (hperm : names.Perm sorted)
    (hsorted : sorted.Pairwise (· ≤ ·)) : sortNames names = sorted :=
  ((perm_sortWith _ names).trans hperm).eq_of_pairwise' (pairwise_sortNames names) hsorted

end Sorting

/-! ### Lists without repetition -/

theorem eraseDups_sublist {α : Type} [BEq α] (xs : List α) : xs.eraseDups.Sublist xs := by
  induction hlength : xs.length using Nat.strong_induction_on generalizing xs with
  | _ n ih =>
    cases xs with
    | nil => simp
    | cons x xs =>
      rw [List.eraseDups_cons]
      have hshort := List.length_filter_le (fun b => !b == x) xs
      rw [List.length_cons] at hlength
      exact ((ih _ (by omega) _ rfl).trans List.filter_sublist).cons_cons x

theorem nodup_eraseDups {α : Type} [BEq α] [LawfulBEq α] (xs : List α) : xs.eraseDups.Nodup := by
  induction hlength : xs.length using Nat.strong_induction_on generalizing xs with
  | _ n ih =>
    cases xs with
    | nil => simp
    | cons x xs =>
      rw [List.eraseDups_cons, List.nodup_cons, List.mem_eraseDups]
      have hshort := List.length_filter_le (fun b => !b == x) xs
      rw [List.length_cons] at hlength
      exact ⟨by simp, ih _ (by omega) _ rfl⟩

end Rddl
