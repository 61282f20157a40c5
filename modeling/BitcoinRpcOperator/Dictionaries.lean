import Mathlib

/-!
# Dictionaries in insertion order, and counters

A dictionary is a list of entries with distinct keys: a new key goes to the end, and the
entry of an old one is replaced in place. A counter is a dictionary of numbers. Counting a
list of keys adds to each as often as it occurs in the list.
-/

namespace BitcoinRpcOperator.Dictionaries

variable {κ β : Type} [DecidableEq κ]

section
variable {k l : κ} {f : Option β → β} {es : List (κ × β)}

/-- The value of the first entry with the key. -/
def find (k : κ) : List (κ × β) → Option β
  | [] => none
  | e :: es => if e.1 = k then some e.2 else find k es

/-- Set the entry of a key to `f` of what it was. -/
def change (k : κ) (f : Option β → β) : List (κ × β) → List (κ × β)
  | [] => [(k, f none)]
  | e :: es => if e.1 = k then (k, f (some e.2)) :: es else e :: change k f es

theorem find_change_self : find k (change k f es) = some (f (find k es)) := by
  induction es with
  | nil => simp [change, find]
  | cons e es ih =>
    by_cases he : e.1 = k
    · simp [change, find, he]
    · simp [change, find, he, ih]

theorem find_change_ne (hne : l ≠ k) : find l (change k f es) = find l es := by
  induction es with
  | nil => simp [change, find, hne.symm]
  | cons e es ih =>
    by_cases he : e.1 = k
    · simp [change, find, he, hne.symm]
    · simp [change, find, he, ih]

theorem keys_change : (change k f es).map (·.1) =
    if k ∈ es.map (·.1) then es.map (·.1) else es.map (·.1) ++ [k] := by
  induction es with
  | nil => simp [change]
  | cons e es ih =>
    by_cases he : e.1 = k
    · simp [change, he]
    · have hmem : k ∈ (e :: es).map (·.1) ↔ k ∈ es.map (·.1) := by
        simp only [List.map_cons, List.mem_cons]
        constructor
        · rintro (h | h)
          · exact absurd h.symm he
          · exact h
        · exact .inr
      rw [if_congr hmem rfl rfl, change, if_neg he, List.map_cons, ih]
      split <;> rfl

theorem nodup_change (h : (es.map (·.1)).Nodup) : ((change k f es).map (·.1)).Nodup := by
  rw [keys_change]
  split
  · exact h
  · rename_i hk
    rw [List.nodup_append]
    refine ⟨h, List.nodup_singleton k, ?_⟩
    intro a ha b hb
    rw [List.mem_singleton.1 hb]
    rintro rfl
    exact hk ha

theorem find_isSome_iff : (find k es).isSome ↔ k ∈ es.map (·.1) := by
  induction es with
  | nil => simp [find]
  | cons e es ih =>
    by_cases he : e.1 = k
    · simp [find, he]
    · simp only [find, he, if_false, ih, List.map_cons, List.mem_cons]
      constructor
      · exact .inr
      · rintro (h | h)
        · exact absurd h.symm he
        · exact h

end

structure Dictionary (κ β : Type) where
  entries : List (κ × β)
  distinct : (entries.map (·.1)).Nodup

namespace Dictionary

def empty : Dictionary κ β := ⟨[], List.nodup_nil⟩

def keys (d : Dictionary κ β) : List κ := d.entries.map (·.1)

def get (d : Dictionary κ β) (k : κ) : Option β := find k d.entries

def update (d : Dictionary κ β) (k : κ) (f : Option β → β) : Dictionary κ β :=
  ⟨change k f d.entries, nodup_change d.distinct⟩

variable (d : Dictionary κ β) {k l : κ} {f : Option β → β}

@[simp] theorem get_empty (k : κ) : (empty : Dictionary κ β).get k = none := rfl

omit [DecidableEq κ] in
@[simp] theorem keys_empty : (empty : Dictionary κ β).keys = [] := rfl

@[simp] theorem get_update_self : (d.update k f).get k = some (f (d.get k)) := find_change_self

theorem get_update_ne (hne : l ≠ k) : (d.update k f).get l = d.get l := find_change_ne hne

theorem keys_update : (d.update k f).keys = if k ∈ d.keys then d.keys else d.keys ++ [k] :=
  keys_change

theorem mem_keys_update : l ∈ (d.update k f).keys ↔ l ∈ d.keys ∨ l = k := by
  rw [keys_update]
  split
  · rename_i hk
    constructor
    · exact .inl
    · rintro (h | rfl)
      · exact h
      · exact hk
  · simp

theorem mem_keys_iff : k ∈ d.keys ↔ (d.get k).isSome := find_isSome_iff.symm

end Dictionary

abbrev Counter (κ : Type) := Dictionary κ ℕ

namespace Counter

def count (c : Counter κ) (k : κ) : ℕ := (c.get k).getD 0

def total (c : Counter κ) : ℕ := (c.entries.map (·.2)).sum

def size (c : Counter κ) : ℕ := c.entries.length

def inc (c : Counter κ) (k : κ) : Counter κ := c.update k fun n => n.getD 0 + 1

def incAll (c : Counter κ) (ks : List κ) : Counter κ := ks.foldl inc c

@[simp] theorem count_empty (k : κ) : count (Dictionary.empty : Counter κ) k = 0 := rfl

omit [DecidableEq κ] in
@[simp] theorem total_empty : total (Dictionary.empty : Counter κ) = 0 := rfl

theorem count_inc (c : Counter κ) (k l : κ) :
    (c.inc k).count l = c.count l + if l = k then 1 else 0 := by
  by_cases h : l = k
  · subst h
    simp [count, inc]
  · simp [count, inc, Dictionary.get_update_ne _ h, h]

theorem sum_change (k : κ) (es : List (κ × ℕ)) :
    ((change k (fun n => n.getD 0 + 1) es).map (·.2)).sum = (es.map (·.2)).sum + 1 := by
  induction es with
  | nil => simp [change]
  | cons e es ih =>
    by_cases he : e.1 = k
    · simp [change, he]
      omega
    · simp [change, he, ih]
      omega

theorem total_inc (c : Counter κ) (k : κ) : (c.inc k).total = c.total + 1 := sum_change k c.entries

@[simp] theorem incAll_nil (c : Counter κ) : c.incAll [] = c := rfl

@[simp] theorem incAll_cons (c : Counter κ) (k : κ) (ks : List κ) :
    c.incAll (k :: ks) = (c.inc k).incAll ks := rfl

theorem incAll_append (c : Counter κ) (ks ls : List κ) :
    c.incAll (ks ++ ls) = (c.incAll ks).incAll ls := List.foldl_append

theorem count_incAll [BEq κ] [LawfulBEq κ] (c : Counter κ) (ks : List κ) (l : κ) :
    (c.incAll ks).count l = c.count l + ks.count l := by
  induction ks generalizing c with
  | nil => simp
  | cons k ks ih =>
    rw [incAll_cons, ih, count_inc, List.count_cons]
    by_cases h : l = k
    · subst h
      simp
      omega
    · have h' : ¬ k = l := fun hk => h hk.symm
      simp [h, h']

theorem total_incAll (c : Counter κ) (ks : List κ) :
    (c.incAll ks).total = c.total + ks.length := by
  induction ks generalizing c with
  | nil => simp
  | cons k ks ih =>
    rw [incAll_cons, ih, total_inc, List.length_cons]
    omega

theorem mem_keys_incAll (c : Counter κ) (ks : List κ) (l : κ) :
    l ∈ (c.incAll ks).keys ↔ l ∈ c.keys ∨ l ∈ ks := by
  induction ks generalizing c with
  | nil => simp
  | cons k ks ih =>
    rw [incAll_cons, ih, inc, Dictionary.mem_keys_update, List.mem_cons, or_assoc]

/-- No more keys than there are in a set that holds them all. -/
theorem size_le_card (c : Counter κ) {s : Finset κ} (h : ∀ k ∈ c.keys, k ∈ s) :
    c.size ≤ s.card := by
  have hsub : c.keys.toFinset ⊆ s := by
    intro k hk
    exact h k (List.mem_toFinset.1 hk)
  calc c.size = c.keys.length := by simp [size, Dictionary.keys]
    _ = c.keys.toFinset.card := (List.toFinset_card_of_nodup c.distinct).symm
    _ ≤ s.card := Finset.card_le_card hsub

/-- At least as many as there are in a list of some of them. -/
theorem length_le_size (c : Counter κ) {ks : List κ} (hdistinct : ks.Nodup)
    (h : ∀ k ∈ ks, k ∈ c.keys) : ks.length ≤ c.size := by
  have hsub : ks.toFinset ⊆ c.keys.toFinset := by
    intro k hk
    exact List.mem_toFinset.2 (h k (List.mem_toFinset.1 hk))
  calc ks.length = ks.toFinset.card := (List.toFinset_card_of_nodup hdistinct).symm
    _ ≤ c.keys.toFinset.card := Finset.card_le_card hsub
    _ = c.keys.length := List.toFinset_card_of_nodup c.distinct
    _ = c.size := by simp [size, Dictionary.keys]

end Counter

end BitcoinRpcOperator.Dictionaries
