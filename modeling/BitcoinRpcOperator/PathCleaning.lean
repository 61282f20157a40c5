import Mathlib.Data.List.Induction
import Mathlib.Data.List.Flatten

/-!
# Clean paths

A path is a list of letters cut into segments by a separator. Cleaning it roots it and takes
out empty segments, segments of one dot, and segments of two dots with the one above them; a
separator at the end stays. A path is its own cleaning exactly when it is clean.
-/

namespace BitcoinRpcOperator.PathCleaning

variable {α : Type} [DecidableEq α] (sep dot : α)

/-- One segment further down; the segments above are listed from the nearest one. -/
def resolve (above : List (List α)) (segment : List α) : List (List α) :=
  if segment = [] ∨ segment = [dot] then above
  else if segment = [dot, dot] then above.tail
  else segment :: above

def resolved (segments : List (List α)) : List (List α) :=
  (segments.foldl (resolve dot) []).reverse

/-- The segments, each behind a separator. -/
def rooted (segments : List (List α)) : List α := segments.flatMap (sep :: ·)

/-- The path of these segments, which stays open if the last one is empty. -/
def cleaned (segments : List (List α)) : List α :=
  if resolved dot segments = [] then [sep]
  else rooted sep (resolved dot segments) ++ if segments.getLast? = some [] then [sep] else []

def clean : List α → List α
  | [] => [sep]
  | c :: rest => cleaned sep dot ((if c = sep then rest else c :: rest).splitOn sep)

/-- Rooted, and no segment is of one or two dots, or empty unless it is the last. -/
def IsClean (path : List α) : Prop :=
  ∃ segments last, path = rooted sep segments ++ sep :: last ∧
    (∀ s ∈ segments ++ [last], sep ∉ s ∧ s ≠ [dot] ∧ s ≠ [dot, dot]) ∧ ∀ s ∈ segments, s ≠ []

variable {sep dot} {segments : List (List α)}

theorem not_mem_of_splitOn (path : List α) : ∀ s ∈ path.splitOn sep, sep ∉ s := by
  induction path with
  | nil => simp
  | cons c path ih =>
    rw [List.splitOn_cons_eq_if_modifyHead]
    obtain ⟨first, rest, hsplit⟩ := List.exists_cons_of_ne_nil (List.splitOn_ne_nil sep path)
    rw [hsplit, List.forall_mem_cons] at ih
    split_ifs with hc
    · rw [hsplit, List.forall_mem_cons, List.forall_mem_cons]
      exact ⟨List.not_mem_nil, ih⟩
    · rw [hsplit, List.modifyHead_cons, List.forall_mem_cons]
      refine ⟨fun hmem => ?_, ih.2⟩
      rcases List.mem_cons.1 hmem with rfl | hmem
      · exact hc (beq_self_eq_true _)
      · exact ih.1 hmem

/-- Splitting undoes the rooting. -/
theorem splitOn_rooted {last : List α} (h : ∀ s ∈ segments ++ [last], sep ∉ s) :
    (rooted sep segments ++ sep :: last).tail.splitOn sep = segments ++ [last] := by
  induction segments with
  | nil => exact List.splitOn_eq_singleton (h last (by simp))
  | cons s segments ih =>
    rw [List.cons_append, List.forall_mem_cons] at h
    have hrest := ih h.2
    have hpath : (rooted sep (s :: segments) ++ sep :: last).tail =
        s ++ sep :: (rooted sep segments ++ sep :: last).tail := by
      cases segments with
      | nil => simp [rooted]
      | cons t segments => simp [rooted]
    rw [hpath, List.splitOn_append_cons_self_of_not_mem h.1, hrest, List.cons_append]

/-- What can be part of a path. -/
def IsName (dot : α) (s : List α) : Prop := s ≠ [] ∧ s ≠ [dot] ∧ s ≠ [dot, dot]

theorem mem_resolve {above : List (List α)} {s t : List α} (h : t ∈ resolve dot above s) :
    t ∈ above ∨ t = s ∧ IsName dot s := by
  unfold resolve at h
  split_ifs at h with hskip hup
  · exact .inl h
  · exact .inl (List.mem_of_mem_tail h)
  · rw [not_or] at hskip
    exact (List.mem_cons.1 h).symm.imp_right fun ht => ⟨ht, hskip.1, hskip.2, hup⟩

theorem mem_foldl_resolve {above : List (List α)} {t : List α} (h : t ∈ segments.foldl (resolve dot) above) :
    t ∈ above ∨ t ∈ segments ∧ IsName dot t := by
  induction segments generalizing above with
  | nil => exact .inl h
  | cons s segments ih =>
    rcases ih h with h | ⟨hmem, hname⟩
    · rcases mem_resolve h with h | ⟨rfl, hname⟩
      · exact .inl h
      · exact .inr ⟨List.mem_cons_self, hname⟩
    · exact .inr ⟨List.mem_cons_of_mem _ hmem, hname⟩

/-- What stays of the segments are segments, and none of them is empty or dots. -/
theorem mem_resolved {s : List α} (h : s ∈ resolved dot segments) : s ∈ segments ∧ IsName dot s :=
  (mem_foldl_resolve (List.mem_reverse.1 h)).resolve_left List.not_mem_nil

/-- Names all stay, in their order. -/
theorem resolved_names {last : List α} (hnames : ∀ s ∈ segments, IsName dot s)
    (hlast : last = [] ∨ IsName dot last) :
    resolved dot (segments ++ [last]) = segments ++ if last = [] then [] else [last] := by
  have push : ∀ {s : List α}, IsName dot s → ∀ above, resolve dot above s = s :: above := by
    intro s hs above
    rw [resolve, if_neg (not_or.2 ⟨hs.1, hs.2.1⟩), if_neg hs.2.2]
  have hfold : ∀ above, segments.foldl (resolve dot) above = segments.reverse ++ above := by
    induction segments with
    | nil => exact fun above => rfl
    | cons s segments ih =>
      rw [List.forall_mem_cons] at hnames
      intro above
      rw [List.foldl_cons, push hnames.1, ih hnames.2, List.reverse_cons, List.append_assoc]
      rfl
  rw [resolved, List.foldl_append, hfold, List.append_nil, List.foldl_cons, List.foldl_nil]
  rcases hlast with rfl | hname
  · rw [resolve, if_pos (.inl rfl), if_pos rfl, List.reverse_reverse, List.append_nil]
  · rw [push hname, if_neg hname.1, List.reverse_cons, List.reverse_reverse]

theorem isClean_cleaned (hsep : ∀ s ∈ segments, sep ∉ s) : IsClean sep dot (cleaned sep dot segments) := by
  have hnames : ∀ s ∈ resolved dot segments, sep ∉ s ∧ IsName dot s :=
    fun s hs => ⟨hsep s (mem_resolved hs).1, (mem_resolved hs).2⟩
  have hempty : sep ∉ ([] : List α) ∧ [] ≠ [dot] ∧ [] ≠ [dot, dot] := by simp
  unfold cleaned
  split_ifs with hroot hopen
  · exact ⟨[], [], rfl, by simp, by simp⟩
  · refine ⟨resolved dot segments, [], rfl, ?_, fun s hs => (hnames s hs).2.1⟩
    rw [List.forall_mem_append, List.forall_mem_singleton]
    exact ⟨fun s hs => ⟨(hnames s hs).1, (hnames s hs).2.2⟩, hempty⟩
  · obtain ⟨names, last, hsplit⟩ := (List.eq_nil_or_concat (resolved dot segments)).resolve_left hroot
    rw [List.concat_eq_append] at hsplit
    rw [hsplit, List.forall_mem_append] at hnames
    rw [hsplit]
    refine ⟨names, last, by simp [rooted], ?_, fun s hs => (hnames.1 s hs).2.1⟩
    rw [List.forall_mem_append]
    exact ⟨fun s hs => ⟨(hnames.1 s hs).1, (hnames.1 s hs).2.2⟩,
      fun s hs => ⟨(hnames.2 s hs).1, (hnames.2 s hs).2.2⟩⟩

theorem isClean_clean (path : List α) : IsClean sep dot (clean sep dot path) := by
  cases path with
  | nil => exact ⟨[], [], rfl, by simp, by simp⟩
  | cons c rest => exact isClean_cleaned (not_mem_of_splitOn _)

/-- A path is its own cleaning just when it is clean. -/
theorem clean_eq_self_iff (path : List α) : clean sep dot path = path ↔ IsClean sep dot path := by
  refine ⟨fun h => h ▸ isClean_clean path, ?_⟩
  rintro ⟨segments, last, hpath, hall, hne⟩
  have hsplit := splitOn_rooted (fun s hs => (hall s hs).1)
  obtain ⟨rest, hrest⟩ : ∃ rest, path = sep :: rest := by
    cases segments with
    | nil => exact ⟨last, hpath⟩
    | cons s segments => exact ⟨_, hpath⟩
  rw [← hpath, hrest, List.tail_cons] at hsplit
  rw [List.forall_mem_append, List.forall_mem_singleton] at hall
  have hresolved := @resolved_names _ _ dot segments last (fun s hs => ⟨hne s hs, (hall.1 s hs).2⟩)
    (or_iff_not_imp_left.2 fun h => ⟨h, hall.2.2⟩)
  rw [hrest, clean, if_pos rfl, hsplit, cleaned, hresolved, ← hrest, hpath]
  by_cases hlast : last = []
  · subst hlast
    rw [List.getLast?_concat]
    cases segments with
    | nil => simp [rooted]
    | cons s segments => simp [rooted]
  · simp [hlast, rooted]

end BitcoinRpcOperator.PathCleaning
