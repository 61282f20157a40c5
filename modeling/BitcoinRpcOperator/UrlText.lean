import BitcoinRpcOperator.JsonText

/-!
# Reading URLs

How an absolute URL is taken apart: the fragment is cut off first, then the query, then
the authority, and what remains is percent-decoded. A URL is a string of bytes.
-/

namespace BitcoinRpcOperator.UrlText
open Text JsonText

/-- A byte that no URL may hold in front of its fragment. -/
def isControl (b : UInt8) : Bool := b < 0x20 || b == 0x7f

/-- The bytes before the first `sep`, and those behind it when there is one. -/
def cut (sep : UInt8) : Bytes → Bytes × Option Bytes
  | [] => ([], none)
  | b :: bs => if b = sep then ([], some bs) else (b :: (cut sep bs).1, (cut sep bs).2)

/-- Percent-decoding; an escape without two hexadecimal digits is an error. -/
def unescape : Bytes → Option Bytes
  | [] => some []
  | b :: bs =>
    if b = byte '%' then
      match bs with
      | c :: d :: rest =>
        if isHexDigit c && isHexDigit d then
          (unescape rest).map ((hexValue c * 16 + hexValue d).toUInt8 :: ·)
        else none
      | _ => none
    else (unescape bs).map (b :: ·)

def isSchemeByte (b : UInt8) : Bool :=
  isDigit b || (byte 'a' ≤ b && b ≤ byte 'z') || (byte 'A' ≤ b && b ≤ byte 'Z') ||
    b == byte '+' || b == byte '-' || b == byte '.'

/-- Scheme, authority and path of a URL that has all three; the path starts at the first
slash behind the authority. -/
def splitAuthority (bs : Bytes) : Option (Bytes × Bytes × Bytes) :=
  match bs.dropWhile isSchemeByte with
  | colon :: slash :: slash' :: rest =>
    if colon = byte ':' ∧ slash = byte '/' ∧ slash' = byte '/' then
      some (bs.takeWhile isSchemeByte, rest.takeWhile (· != byte '/'),
        rest.dropWhile (· != byte '/'))
    else none
  | _ => none

structure Url where
  scheme : Bytes
  authority : Bytes
  /-- Decoded. -/
  path : Bytes
  query : Option Bytes
  /-- Decoded. -/
  fragment : Option Bytes
  deriving DecidableEq, Repr

/-- Decode a fragment when there is one. -/
def unescapeFragment : Option Bytes → Option (Option Bytes)
  | none => some none
  | some f => (unescape f).map some

/-- `url.Parse` of a URL with a scheme and an authority. -/
def parse (raw : Bytes) : Option Url :=
  let front := (cut (byte '#') raw).1
  if front.all fun b => !isControl b then
    (splitAuthority (cut (byte '?') front).1).bind fun parts =>
      (unescape parts.2.2).bind fun path =>
        (unescapeFragment (cut (byte '#') raw).2).map fun fragment =>
          ⟨parts.1, parts.2.1, path, (cut (byte '?') front).2, fragment⟩
  else none

theorem isControl_of_scheme {b : UInt8} (h : isSchemeByte b) : isControl b = false := by
  by_contra hcontrol
  rw [Bool.not_eq_false, isControl, Bool.or_eq_true, decide_eq_true_eq, beq_iff_eq] at hcontrol
  rcases hcontrol with hlow | rfl
  · have hbound : b.toNat < 0x20 := UInt8.lt_iff_toNat_lt.1 hlow
    have hleast : ∀ c : UInt8, 0x20 ≤ c.toNat → ¬ c ≤ b := by
      intro c hc hle
      have hle' := UInt8.le_iff_toNat_le.1 hle
      omega
    have hne : ∀ c : UInt8, 0x20 ≤ c.toNat → b ≠ c := by
      rintro c hc rfl
      omega
    simp [isSchemeByte, isDigit, hleast _ (by decide : 0x20 ≤ (byte '0').toNat),
      hleast _ (by decide : 0x20 ≤ (byte 'a').toNat), hleast _ (by decide : 0x20 ≤ (byte 'A').toNat),
      hne _ (by decide : 0x20 ≤ (byte '+').toNat), hne _ (by decide : 0x20 ≤ (byte '-').toNat),
      hne _ (by decide : 0x20 ≤ (byte '.').toNat)] at h
  · exact absurd h (by decide)

theorem cut_append {sep : UInt8} {a : Bytes} (h : sep ∉ a) (b : Bytes) :
    cut sep (a ++ b) = (a ++ (cut sep b).1, (cut sep b).2) := by
  induction a with
  | nil => rfl
  | cons c a ih =>
    have hc : c ≠ sep := fun hc => h (by simp [hc])
    rw [List.cons_append, cut, if_neg hc, ih fun hmem => h (List.mem_cons_of_mem _ hmem)]
    rfl

theorem cut_of_not_mem {sep : UInt8} {a : Bytes} (h : sep ∉ a) : cut sep a = (a, none) := by
  simpa [cut] using cut_append h []

theorem not_mem_of_cut {sep : UInt8} {a : Bytes} (h : (cut sep a).2 = none) : sep ∉ a := by
  induction a with
  | nil => simp
  | cons c a ih =>
    rw [cut] at h
    split at h
    · cases h
    · rename_i hc
      intro hmem
      rcases List.mem_cons.1 hmem with rfl | hmem
      · exact hc rfl
      · exact ih h hmem

theorem unescape_cons {b : UInt8} (hb : b ≠ byte '%') (bs : Bytes) :
    unescape (b :: bs) = (unescape bs).map (b :: ·) := by
  conv_lhs => unfold unescape
  exact if_neg hb

/-- What an escape stands for. -/
theorem unescape_escape {bs cs : Bytes} (h : unescape (byte '%' :: bs) = some cs) :
    ∃ c d rest e ds, bs = c :: d :: rest ∧ unescape rest = some ds ∧ cs = e :: ds := by
  match bs, h with
  | c :: d :: rest, h =>
    rw [unescape, if_pos rfl] at h
    split at h
    · obtain ⟨ds, hds, hcs⟩ := Option.map_eq_some_iff.1 h
      exact ⟨c, d, rest, _, ds, rfl, hds, hcs.symm⟩
    · cases h
  | [], h => simp [unescape] at h
  | [c], h => simp [unescape] at h

theorem unescape_of_not_mem {bs : Bytes} (h : byte '%' ∉ bs) : unescape bs = some bs := by
  induction bs with
  | nil => rfl
  | cons b bs ih =>
    have hb : b ≠ byte '%' := fun hb => h (by simp [hb])
    rw [unescape_cons hb, ih fun hmem => h (List.mem_cons_of_mem _ hmem)]
    rfl

theorem length_unescape_le (n : ℕ) {bs cs : Bytes} (hn : bs.length ≤ n)
    (h : unescape bs = some cs) : cs.length ≤ bs.length := by
  induction n generalizing bs cs with
  | zero =>
    obtain rfl := List.length_eq_zero_iff.1 (Nat.le_zero.1 hn)
    obtain rfl : [] = cs := Option.some.inj h
    exact le_refl _
  | succ n ih =>
    cases bs with
    | nil =>
      obtain rfl : [] = cs := Option.some.inj h
      exact le_refl _
    | cons b bs =>
      rw [List.length_cons] at hn
      by_cases hb : b = byte '%'
      · subst hb
        obtain ⟨c, d, rest, e, ds, rfl, hds, rfl⟩ := unescape_escape h
        simp only [List.length_cons] at hn ⊢
        have hshort := ih (by omega) hds
        omega
      · rw [unescape_cons hb] at h
        obtain ⟨ds, hds, rfl⟩ := Option.map_eq_some_iff.1 h
        have hshort := ih (by omega) hds
        simp only [List.length_cons]
        omega

/-- Decoding shortens whatever holds an escape. -/
theorem not_mem_of_unescape_eq {bs : Bytes} (h : unescape bs = some bs) : byte '%' ∉ bs := by
  induction bs with
  | nil => simp
  | cons b bs ih =>
    by_cases hb : b = byte '%'
    · subst hb
      obtain ⟨c, d, rest, e, ds, rfl, hds, heq⟩ := unescape_escape h
      have hshort := length_unescape_le rest.length le_rfl hds
      have hlength := congrArg List.length heq
      simp only [List.length_cons] at hlength
      omega
    · rw [unescape_cons hb] at h
      obtain ⟨ds, hds, heq⟩ := Option.map_eq_some_iff.1 h
      obtain ⟨-, rfl⟩ := List.cons.inj heq
      intro hmem
      rcases List.mem_cons.1 hmem with hmem | hmem
      · exact hb hmem.symm
      · exact ih hds hmem

end BitcoinRpcOperator.UrlText
