import BitcoinRpcOperator.ContainerEnds

/-!
# The text around serialized fragments

`_redact_serialized_fragments` replaces the containers that it recognises in a text. Where
one of them is parsed with the quotes around it, the text up to the container has been
written by then, and the quote in front of it stays.
-/

namespace BitcoinRpcOperator.Redaction
open Text PythonValues
open RaisedExceptions (bind_eq_ok)

/-- A recognised container: its brackets stand at `start` and `stop`, and it is parsed as a
quoted string or as it is. -/
structure Container where
  start : ℕ
  stop : ℕ
  quoted : Bool
  deriving DecidableEq, Repr

namespace Container

def parseStart (k : Container) : ℕ := if k.quoted then k.start - 1 else k.start

def parseEnd (k : Container) : ℕ := if k.quoted then k.stop + 2 else k.stop + 1

end Container

/-- Whether the same quote stands on both sides of a container. -/
def standsQuoted (value : Str) (start stop : ℕ) : Bool :=
  0 < start && match value[start - 1]?, value[stop + 1]? with
    | some q, some a => isQuote q && a == q
    | _, _ => false

/-- The containers in what stands at `index` of a text, of which `skip` characters have been
parsed already, up to one that has no end. -/
def containersFrom (value : Str) : ℕ → ℕ → Str → List Container
  | _, _, [] => []
  | skip + 1, index, _ :: rest => containersFrom value skip (index + 1) rest
  | 0, index, c :: rest =>
    if isOpener c && looksSerializedStart c rest then
      match containerEnd c rest with
      | none => []
      | some len =>
        let k : Container := ⟨index, index + len, standsQuoted value index (index + len)⟩
        k :: containersFrom value (k.parseEnd - (index + 1)) (index + 1) rest
    else containersFrom value 0 (index + 1) rest

/-- The containers that the redactor recognises in a text. -/
def containers (value : Str) : List Container := containersFrom value 0 0 value

/-- The text from `cursor` on with other texts in the place of its containers, each of which
takes the place from `first` to where the parsing ends. -/
def spliced (value : Str) (first : Container → ℕ) : ℕ → List Container → List Str → Str
  | cursor, k :: ks, t :: ts => slice value cursor (first k) ++ t ++ spliced value first k.parseEnd ks ts
  | cursor, _, _ => value.drop cursor

variable (lib : Library)

def redactSerializedFragments (value : Str) : Except PythonError (Option Str) :=
  redactFragments lib (redactAt lib) lib.room (value.length + 1) none value

/-- The redacted JSON of a container. -/
def RedactedAs (value : Str) (k : Container) (t : Str) : Prop :=
  ∃ v v', parseSerialized lib (slice value k.parseStart k.parseEnd) = .ok (some v) ∧
    redactValue lib (redactAt lib) lib.room [] v = .ok v' ∧ dumps compactStyle v' = .ok t

/-- The loop comes to an end, also where everything parses. -/
inductive Ends : Option Char → Str → Prop
  | finished {before : Option Char} {value plain : Str} : nextRound before value = .finished plain →
      Ends before value
  | unclosed {before : Option Char} {value : Str} : nextRound before value = .unclosed → Ends before value
  | skipped {before : Option Char} {value plain rest : Str} : nextRound before value = .skipped plain rest →
      Ends plain.getLast? rest → Ends before value
  | found {before : Option Char} {value plain fragment rest : Str} :
      nextRound before value = .found plain fragment rest → Ends fragment.getLast? rest → Ends before value

/-- Containers are replaced together with the quotes they are parsed with, and everything else stays. -/
structure KeepsText (value out : Str) : Prop where
  replaced : ∃ texts, List.Forall₂ (RedactedAs lib value) (containers value) texts ∧
    out = spliced value Container.parseStart 0 (containers value) texts
  untouched : containers value = [] → out = value

variable {lib}

theorem ends_of_length (n : ℕ) (before : Option Char) (value : Str) (hn : value.length < n) :
    Ends before value := by
  induction n generalizing before value with
  | zero => cases hn
  | succ n ih =>
    obtain ⟨hskipped, hfound⟩ := nextRound_spec before value
    cases hround : nextRound before value with
    | finished plain => exact .finished hround
    | unclosed => exact .unclosed hround
    | skipped plain rest =>
      have hshorter := hskipped plain rest hround
      exact .skipped hround (ih _ rest (by omega))
    | found plain fragment rest =>
      obtain ⟨-, hshorter⟩ := hfound plain fragment rest hround
      exact .found hround (ih _ rest (by omega))

theorem slice_append (a b c : Str) : slice (a ++ b ++ c) a.length (a.length + b.length) = b := by
  rw [slice, ← List.length_append, List.take_left, List.drop_left]

theorem slice_length (value : Str) (i j : ℕ) : (slice value i j).length = min j value.length - i := by
  rw [slice, List.length_drop, List.length_take]

theorem slice_split {done plain rest : Str} {j : ℕ} (hj : done.length + plain.length ≤ j) :
    slice (done ++ (plain ++ rest)) done.length j =
      plain ++ slice (done ++ (plain ++ rest)) (done.length + plain.length) j := by
  rw [slice, slice, List.drop_take, List.drop_take, List.drop_left, ← List.append_assoc, ← List.length_append,
    List.drop_left, List.take_append, List.take_of_length_le (by omega), List.length_append, Nat.sub_sub]

section
variable {value done rest : Str}

theorem containersFrom_skip (skip index : ℕ) (s : Str) :
    containersFrom value skip index s = containersFrom value 0 (index + skip) (s.drop skip) := by
  induction s generalizing skip index with
  | nil => cases skip <;> simp [containersFrom]
  | cons c s ih =>
    cases skip with
    | zero => rfl
    | succ skip =>
      rw [containersFrom, ih, List.drop_succ_cons]
      congr 1
      omega

/-- Characters that start no container are passed over. -/
theorem containersFrom_plain {plain : Str} (hplain : ∀ a ∈ plain, isOpener a = false) (index : ℕ) (s : Str) :
    containersFrom value 0 index (plain ++ s) = containersFrom value 0 (index + plain.length) s := by
  induction plain generalizing index with
  | nil => rfl
  | cons a plain ih =>
    rw [List.forall_mem_cons] at hplain
    have hlength : index + (a :: plain).length = index + 1 + plain.length := by
      rw [List.length_cons]
      omega
    rw [List.cons_append, containersFrom, hplain.1, Bool.false_and, if_neg (by decide), ih hplain.2, hlength]

theorem start_ge (index skip : ℕ) (s : Str) : ∀ k ∈ containersFrom value skip index s, index ≤ k.start := by
  induction s generalizing index skip with
  | nil => cases skip <;> nofun
  | cons c s ih =>
    have hnext : ∀ skip, ∀ k ∈ containersFrom value skip (index + 1) s, index ≤ k.start :=
      fun skip k hk => (Nat.le_succ index).trans (ih (index + 1) skip k hk)
    cases skip with
    | succ skip => exact hnext skip
    | zero =>
      rw [containersFrom]
      split_ifs with hopen
      · cases containerEnd c s with
        | none => nofun
        | some len =>
          rw [List.forall_mem_cons]
          exact ⟨le_rfl, hnext _⟩
      · exact hnext 0

theorem surroundingQuote_eq_some {before : Option Char} {after : Str} {q : Char}
    (h : surroundingQuote before after = some q) :
    before = some q ∧ isQuote q ∧ ∃ more, after = q :: more := by
  unfold surroundingQuote at h
  split at h
  · next a b more =>
    split_ifs at h with hcond
    obtain rfl := Option.some.inj h
    rw [Bool.and_eq_true] at hcond
    obtain rfl := eq_of_beq hcond.2
    exact ⟨rfl, hcond.1, more, rfl⟩
  · cases h

theorem standsQuoted_eq {front rest : Str} {c : Char} (len : ℕ) :
    standsQuoted (front ++ c :: rest) front.length (front.length + len) =
      (surroundingQuote front.getLast? (rest.drop len)).isSome := by
  have hafter : (front ++ c :: rest)[front.length + len + 1]? = (rest.drop len).head? := by
    rw [List.getElem?_append_right (by omega), List.head?_drop]
    have hindex : front.length + len + 1 - front.length = len + 1 := by omega
    rw [hindex, List.getElem?_cons_succ]
  rcases List.eq_nil_or_concat front with rfl | ⟨front, q, hconcat⟩
  · simp [standsQuoted, surroundingQuote]
  · rw [List.concat_eq_append] at hconcat
    subst hconcat
    have hbefore : (front ++ [q] ++ c :: rest)[(front ++ [q]).length - 1]? = some q := by
      simp
    have hlast : (front ++ [q]).getLast? = some q := by simp
    have hpos : 0 < (front ++ [q]).length := by simp
    rw [standsQuoted, hbefore, hafter, hlast, decide_eq_true hpos, Bool.true_and]
    cases rest.drop len with
    | nil => rfl
    | cons a after =>
      have hquote : surroundingQuote (some q) (a :: after) = if isQuote q && a == q then some q else none := rfl
      rw [hquote, List.head?_cons]
      split_ifs with hcond
      · exact hcond
      · exact Bool.eq_false_iff.2 hcond

/-- A recognised container, with its quotes if it has them, is what is parsed. -/
theorem found_container {front rest : Str} {c : Char} {len : ℕ} {quote : Str}
    (hvalue : value = front ++ c :: rest) (hend : containerEnd c rest = some len) (hc : isOpener c)
    (hlooks : looksSerializedStart c rest)
    (hquote : quote = (surroundingQuote front.getLast? (rest.drop len)).toList) :
    ∃ k before fragment after, fragment = quote ++ c :: rest.take len ++ quote ∧
      after = (rest.drop len).drop quote.length ∧ value = before ++ fragment ++ after ∧
      k.start = front.length ∧ k.parseStart = before.length ∧ k.parseEnd = before.length + fragment.length ∧
      containersFrom value 0 front.length (c :: rest) = k :: containersFrom value 0 k.parseEnd after := by
  obtain ⟨close, hclose⟩ := closer_of_isOpener hc
  obtain ⟨body, more, hrest, -, hlen⟩ := (containerEnd_iff hclose).1 hend
  have htake : (rest.take len).length = len := by
    rw [List.length_take, hrest]
    simp only [List.length_append, List.length_cons]
    omega
  have hhere : containersFrom value 0 front.length (c :: rest) =
      (⟨front.length, front.length + len, standsQuoted value front.length (front.length + len)⟩ : Container) ::
        containersFrom value ((⟨front.length, front.length + len,
          standsQuoted value front.length (front.length + len)⟩ : Container).parseEnd - (front.length + 1))
          (front.length + 1) rest := by
    rw [containersFrom, hc, hlooks, hend]
    rfl
  have hsplit : rest = rest.take len ++ rest.drop len := (List.take_append_drop len rest).symm
  rw [hhere, containersFrom_skip]
  rw [hvalue, standsQuoted_eq, ← hvalue]
  cases hsurround : surroundingQuote front.getLast? (rest.drop len) with
  | none =>
    rw [hsurround] at hquote
    subst hquote
    have hskip : front.length + len + 1 - (front.length + 1) = len := by omega
    have hindex : front.length + 1 + len = front.length + len + 1 := by omega
    refine ⟨⟨front.length, front.length + len, false⟩, front, c :: rest.take len, rest.drop len, by simp, by simp,
      ?_, rfl, rfl, ?_, ?_⟩
    · rw [hvalue, List.append_assoc, List.cons_append, ← hsplit]
    · simp only [Container.parseEnd, List.length_cons, htake]
      rfl
    · simp only [Container.parseEnd, Option.isSome_none, Bool.false_eq_true, if_false, hskip, hindex]
  | some q =>
    obtain ⟨hfront, -, after, hafter⟩ := surroundingQuote_eq_some hsurround
    obtain ⟨before, rfl⟩ := List.getLast?_eq_some_iff.1 hfront
    rw [hsurround] at hquote
    subst hquote
    have hskip : (before ++ [q]).length + len + 2 - ((before ++ [q]).length + 1) = len + 1 := by omega
    have hindex : (before ++ [q]).length + 1 + (len + 1) = (before ++ [q]).length + len + 2 := by omega
    have hdrop : rest.drop (len + 1) = after := by
      rw [← List.drop_drop, hafter]
      rfl
    refine ⟨⟨(before ++ [q]).length, (before ++ [q]).length + len, true⟩, before,
      [q] ++ c :: rest.take len ++ [q], after, rfl, ?_, ?_, rfl, ?_, ?_, ?_⟩
    · rw [hafter]
      rfl
    · rw [hvalue]
      nth_rewrite 1 [hsplit]
      rw [hafter]
      simp
    · simp [Container.parseStart]
    · simp only [Container.parseEnd, List.length_append, List.length_cons, List.length_nil, htake, if_true]
      omega
    · simp only [Container.parseEnd, Option.isSome_some, if_true, hskip, hindex, hdrop]

/-- Text before the containers is copied as it is. -/
theorem spliced_plain {first : Container → ℕ} {plain : Str} (hvalue : value = done ++ (plain ++ rest))
    {ks : List Container} (hks : ∀ k ∈ ks.head?, done.length + plain.length ≤ first k) (ts : List Str) :
    spliced value first done.length ks ts =
      plain ++ spliced value first (done.length + plain.length) ks ts := by
  have hdrop : value.drop done.length = plain ++ value.drop (done.length + plain.length) := by
    rw [hvalue, List.drop_left, ← List.append_assoc, ← List.length_append, List.drop_left]
  cases ks with
  | nil => exact hdrop
  | cons k ks =>
    cases ts with
    | nil => exact hdrop
    | cons t ts =>
      rw [spliced, spliced, hvalue, slice_split (hks k rfl)]
      simp only [List.append_assoc]

end

theorem spliced_nil (value : Str) (first : Container → ℕ) (cursor : ℕ) :
    spliced value first cursor [] [] = value.drop cursor := rfl

/-- What the loop writes: the containers, without the quotes in front of them, are replaced. -/
theorem redactFragments_spliced {value : Str} (n : ℕ) {done rest out : Str} (hvalue : value = done ++ rest)
    (h : redactFragments lib (redactAt lib) lib.room n done.getLast? rest = .ok (some out)) :
    ∃ texts, List.Forall₂ (RedactedAs lib value) (containersFrom value 0 done.length rest) texts ∧
      out = spliced value Container.start done.length (containersFrom value 0 done.length rest) texts := by
  induction n generalizing done rest out with
  | zero => cases h
  | succ n ih =>
    rw [redactFragments] at h
    rcases nextRound_cases done.getLast? rest with ⟨hplain, hround⟩ |
      ⟨plain, c, more, rfl, hplain, hopener, ⟨hlooks, hround⟩ | ⟨hlooks, ⟨-, hround⟩ | ⟨len, quote, hend, hquote, hround⟩⟩⟩
    · rw [hround] at h
      obtain rfl := Option.some.inj (Except.ok.inj h)
      have hnone : containersFrom value 0 done.length rest = [] := by
        have hpast : containersFrom value 0 done.length (rest ++ []) =
            containersFrom value 0 (done.length + rest.length) [] := containersFrom_plain hplain done.length []
        rw [List.append_nil] at hpast
        exact hpast
      rw [hnone]
      refine ⟨[], .nil, ?_⟩
      rw [spliced_nil, hvalue, List.drop_left]
    · rw [hround] at h
      obtain ⟨out', hrest, hout⟩ := bind_eq_ok.1 h
      obtain ⟨more', rfl, rfl⟩ := Option.map_eq_some_iff.1 (Except.ok.inj hout)
      have hsplit : value = (done ++ (plain ++ [c])) ++ more := by simpa using hvalue
      have hlast : (plain ++ [c]).getLast? = (done ++ (plain ++ [c])).getLast? := by simp
      rw [hlast] at hrest
      obtain ⟨texts, htexts, rfl⟩ := ih hsplit hrest
      have hpast : containersFrom value 0 done.length (plain ++ c :: more) =
          containersFrom value 0 (done ++ (plain ++ [c])).length more := by
        rw [containersFrom_plain hplain, containersFrom, hlooks, Bool.and_false, if_neg (by decide)]
        congr 1
        simp only [List.length_append, List.length_cons, List.length_nil]
        omega
      rw [hpast]
      refine ⟨texts, htexts, ?_⟩
      have hwhole : value = done ++ ((plain ++ [c]) ++ more) := by simpa using hsplit
      have hlater : ∀ k ∈ (containersFrom value 0 (done.length + (plain ++ [c]).length) more).head?,
          done.length + (plain ++ [c]).length ≤ k.start :=
        fun k hk => start_ge _ 0 more k (List.mem_of_mem_head? hk)
      rw [List.length_append]
      exact (spliced_plain hwhole hlater texts).symm
    · rw [hround] at h
      cases h
    · rw [hround] at h
      obtain ⟨parsed, hparsed, h⟩ := bind_eq_ok.1 h
      cases parsed with
      | none => cases h
      | some v =>
        obtain ⟨v', hv', h⟩ := bind_eq_ok.1 h
        obtain ⟨t, ht, h⟩ := bind_eq_ok.1 h
        obtain ⟨out', hrest, hout⟩ := bind_eq_ok.1 h
        obtain ⟨more', rfl, rfl⟩ := Option.map_eq_some_iff.1 (Except.ok.inj hout)
        have hfront : value = (done ++ plain) ++ c :: more := by simpa using hvalue
        have hbefore : plain.getLast?.or done.getLast? = (done ++ plain).getLast? :=
          List.getLast?_append.symm
        rw [hbefore] at hquote
        obtain ⟨k, before, fragment, after, hfragment, hafter, hsplit, hstart, hparse, hparseEnd, hfrom⟩ :=
          found_container hfront hend hopener hlooks hquote
        rw [← hfragment, ← hafter] at hrest
        have hne : fragment ≠ [] := by simp [hfragment]
        have hlast : fragment.getLast? = (before ++ fragment).getLast? := by
          rw [List.getLast?_append, List.getLast?_eq_some_getLast hne]
          rfl
        rw [hlast] at hrest
        obtain ⟨texts, htexts, rfl⟩ := ih hsplit hrest
        have hall : containersFrom value 0 done.length (plain ++ c :: more) =
            k :: containersFrom value 0 (before ++ fragment).length after := by
          rw [containersFrom_plain hplain, ← List.length_append, hfrom, hparseEnd, List.length_append]
        rw [hall]
        have hslice : slice value k.parseStart k.parseEnd = fragment := by
          rw [hparse, hparseEnd, hsplit, slice_append]
        refine ⟨t :: texts, .cons ⟨v, v', ?_, hv', ht⟩ htexts, ?_⟩
        · rw [hslice, hfragment]
          exact hparsed
        · have hplainSlice : slice value done.length k.start = plain := by
            rw [hstart, hfront, List.length_append, slice_append]
          rw [spliced, hplainSlice, hparseEnd, List.length_append]

/-- Containers after a cursor, one behind the other; the one before a container that is not
parsed with quotes ends in no quote. -/
inductive Placed (value : Str) : ℕ → List Container → Prop
  | nil {cursor : ℕ} : Placed value cursor []
  | cons {cursor : ℕ} {k : Container} {ks : List Container} : cursor ≤ k.start → k.start < value.length →
      (k.quoted → 0 < k.start ∧ (value[k.start - 1]?).any isQuote) →
      (value[k.stop]?).any isQuote = false → Placed value k.parseEnd ks → Placed value cursor (k :: ks)

theorem Placed.mono {value : Str} {cursor cursor' : ℕ} {ks : List Container} (h : Placed value cursor ks)
    (hle : cursor' ≤ cursor) : Placed value cursor' ks := by
  cases h with
  | nil => exact .nil
  | cons hcursor hlt hquoted hstop hks => exact .cons (hle.trans hcursor) hlt hquoted hstop hks

theorem standsQuoted_front {value : Str} {start stop : ℕ} (h : standsQuoted value start stop) :
    0 < start ∧ (value[start - 1]?).any isQuote := by
  rw [standsQuoted, Bool.and_eq_true, decide_eq_true_eq] at h
  refine ⟨h.1, ?_⟩
  cases hq : value[start - 1]? with
  | none => simp [hq] at h
  | some q =>
    cases ha : value[stop + 1]? with
    | none => simp [ha] at h
    | some a =>
      simp only [hq, ha, Bool.and_eq_true] at h
      exact h.2.1

theorem containersFrom_placed {value : Str} (skip : ℕ) {index : ℕ} {s : Str} (hvalue : value.drop index = s) :
    Placed value (index + skip) (containersFrom value skip index s) := by
  induction s generalizing skip index with
  | nil => cases skip <;> exact .nil
  | cons c s ih =>
    have hnext : value.drop (index + 1) = s := by rw [← List.drop_drop, hvalue]; rfl
    cases skip with
    | succ skip =>
      have hsame : index + (skip + 1) = index + 1 + skip := by omega
      rw [hsame]
      exact ih skip hnext
    | zero =>
      rw [containersFrom]
      split_ifs with hopen
      · rw [Bool.and_eq_true] at hopen
        cases hend : containerEnd c s with
        | none => exact .nil
        | some len =>
          obtain ⟨close, hclose⟩ := closer_of_isOpener hopen.1
          obtain ⟨body, more, hs, -, rfl⟩ := (containerEnd_iff hclose).1 hend
          have hlt : index < value.length := by
            have hlength := congrArg List.length hvalue
            rw [List.length_drop, List.length_cons] at hlength
            omega
          have hstop : value[index + (body.length + 1)]? = some close := by
            rw [← List.getElem?_drop, hvalue, hs, List.getElem?_cons_succ, List.getElem?_append_right le_rfl,
              Nat.sub_self]
            rfl
          refine .cons le_rfl hlt standsQuoted_front ?_ ?_
          · rw [hstop]
            rcases closer_cases hclose with ⟨-, rfl⟩ | ⟨-, rfl⟩ <;> rfl
          · refine (ih _ hnext).mono ?_
            simp only [Container.parseEnd]
            split_ifs <;> omega
      · exact (ih 0 hnext).mono (Nat.le_succ index)

/-- Quotes that are replaced leave a text no longer than those that stay. -/
theorem spliced_length_le (value : Str) (cursor : ℕ) (ks : List Container) (ts : List Str) :
    (spliced value Container.parseStart cursor ks ts).length ≤ (spliced value Container.start cursor ks ts).length := by
  induction ks generalizing cursor ts with
  | nil => cases ts <;> exact le_rfl
  | cons k ks ih =>
    cases ts with
    | nil => exact le_rfl
    | cons t ts =>
      have hless : k.parseStart ≤ k.start := by
        rw [Container.parseStart]
        split_ifs <;> omega
      have hrest := ih k.parseEnd ts
      simp only [spliced, List.length_append, slice_length]
      omega

/-- The quote in front of the first container that is parsed with quotes stays. -/
theorem spliced_length_lt {value : Str} {cursor : ℕ} {ks : List Container} {ts : List Str}
    (h : Placed value cursor ks) (hcursor : 0 < cursor → (value[cursor - 1]?).any isQuote = false)
    (hquoted : ∃ k ∈ ks, k.quoted) (hlength : ks.length = ts.length) :
    (spliced value Container.parseStart cursor ks ts).length < (spliced value Container.start cursor ks ts).length := by
  induction h generalizing ts with
  | nil => simp at hquoted
  | @cons cursor k ks hle hlt hfront hstop hks ih =>
    cases ts with
    | nil => cases hlength
    | cons t ts =>
      simp only [spliced, List.length_append, slice_length]
      cases hk : k.quoted with
      | true =>
        obtain ⟨hpos, hquote⟩ := hfront hk
        have hne : cursor ≠ k.start := by
          rintro rfl
          rw [hcursor hpos] at hquote
          cases hquote
        have hrest := spliced_length_le value k.parseEnd ks ts
        simp only [Container.parseStart, hk, if_true]
        omega
      | false =>
        have hend : k.parseEnd = k.stop + 1 := by simp [Container.parseEnd, hk]
        have hmore : ∃ k ∈ ks, k.quoted := by
          obtain ⟨k', hk', hq⟩ := hquoted
          rcases List.mem_cons.1 hk' with rfl | hk'
          · rw [hk] at hq
            cases hq
          · exact ⟨k', hk', hq⟩
        have hrest := ih (fun _ => by rw [hend]; exact hstop) hmore (Nat.succ.inj hlength)
        simp only [Container.parseStart, hk, Bool.false_eq_true, if_false]
        omega

theorem spliced_unquoted {value : Str} {cursor : ℕ} {ks : List Container} (ts : List Str)
    (h : ∀ k ∈ ks, k.quoted = false) :
    spliced value Container.parseStart cursor ks ts = spliced value Container.start cursor ks ts := by
  induction ks generalizing cursor ts with
  | nil => cases ts <;> rfl
  | cons k ks ih =>
    rw [List.forall_mem_cons] at h
    cases ts with
    | nil => rfl
    | cons t ts =>
      have hstart : k.parseStart = k.start := by simp [Container.parseStart, h.1]
      rw [spliced, spliced, hstart, ih ts h.2]

theorem redactedAs_unique {value : Str} {k : Container} {t t' : Str} (h : RedactedAs lib value k t)
    (h' : RedactedAs lib value k t') : t = t' := by
  obtain ⟨v, w, hparse, hredact, hdump⟩ := h
  obtain ⟨v', w', hparse', hredact', hdump'⟩ := h'
  obtain rfl : v = v' := Option.some.inj (Except.ok.inj (hparse.symm.trans hparse'))
  obtain rfl : w = w' := Except.ok.inj (hredact.symm.trans hredact')
  exact Except.ok.inj (hdump.symm.trans hdump')

theorem redactedTexts_unique {value : Str} {ks : List Container} {ts ts' : List Str}
    (h : List.Forall₂ (RedactedAs lib value) ks ts) (h' : List.Forall₂ (RedactedAs lib value) ks ts') : ts = ts' := by
  induction h generalizing ts' with
  | nil =>
    cases h'
    rfl
  | cons ht _ ih =>
    cases h' with
    | cons ht' hts' => rw [redactedAs_unique ht ht', ih hts']

section
variable {value out : Str}

theorem spliced_start (h : redactSerializedFragments lib value = .ok (some out)) :
    ∃ texts, List.Forall₂ (RedactedAs lib value) (containers value) texts ∧
      out = spliced value Container.start 0 (containers value) texts :=
  @redactFragments_spliced lib value (value.length + 1) [] value out rfl h

/-- Where the text is preserved, no container is parsed as a quoted string. -/
theorem KeepsText.unquoted (hkeeps : KeepsText lib value out)
    (h : redactSerializedFragments lib value = .ok (some out)) : ∀ k ∈ containers value, k.quoted = false := by
  obtain ⟨texts, htexts, hout⟩ := spliced_start h
  obtain ⟨texts', htexts', hreplaced⟩ := hkeeps.replaced
  obtain rfl := redactedTexts_unique htexts htexts'
  by_contra hsome
  push Not at hsome
  obtain ⟨k, hk, hquoted⟩ := hsome
  have hplaced : Placed value 0 (containers value) := containersFrom_placed 0 rfl
  have hless := spliced_length_lt hplaced nofun ⟨k, hk, by simpa using hquoted⟩ htexts.length_eq
  rw [← hout, ← hreplaced] at hless
  exact lt_irrefl _ hless

variable (lib value) in
/-- The loop ends on every text, and what it returns preserves the text around the containers just where none
of them is parsed as a quoted string. -/
theorem keepsText_iff : Ends none value ∧ ∀ out, redactSerializedFragments lib value = .ok (some out) →
    (KeepsText lib value out ↔ ∀ k ∈ containers value, k.quoted = false) := by
  refine ⟨ends_of_length _ none value (Nat.lt_succ_self _), fun out h => ?_⟩
  constructor
  · intro hkeeps
    exact hkeeps.unquoted h
  · intro hnone
    obtain ⟨texts, htexts, hout⟩ := spliced_start h
    rw [← spliced_unquoted texts hnone] at hout
    constructor
    · exact ⟨texts, htexts, hout⟩
    · intro hempty
      rw [hout, hempty, spliced]
      · rfl
      · nofun

end

def quotedList : Str := "'[]'".toList

theorem emptyList_loads_shorter (s : Str) (v : Data)
    (h : (if s = "[]".toList then .ok (Data.list []) else .error .invalid : Except ParseError Data) = .ok v) :
    ∀ leaf ∈ leaves v, leaf.length < s.length := by
  split_ifs at h with hs
  obtain rfl := Except.ok.inj h
  nofun

theorem emptyList_literalEval_shorter (s : Str) (v : Data)
    (h : (if s = quotedList then .ok (.str "[]".toList) else .error .invalid : Except ParseError Data) = .ok v) :
    ∀ leaf ∈ leaves v, leaf.length < s.length := by
  split_ifs at h with hs
  obtain rfl := Except.ok.inj h
  subst hs
  simp [leaves, quotedList]

/-- A library that reads an empty list, as JSON or in a quoted string. -/
def emptyListLibrary : Library where
  loads s := if s = "[]".toList then .ok (.list []) else .error .invalid
  literalEval s := if s = quotedList then .ok (.str "[]".toList) else .error .invalid
  room := 1000
  wordChar _ := false
  printable _ := false
  loads_shorter := emptyList_loads_shorter
  literalEval_shorter := emptyList_literalEval_shorter

/-- The quote in front of a quoted container stays, and the one behind it goes. -/
theorem quotedList_loses_quote : ¬ ∀ lib value out,
    redactSerializedFragments lib value = .ok (some out) → KeepsText lib value out := by
  intro h
  have hout : redactSerializedFragments emptyListLibrary quotedList = .ok (some "'[]".toList) := rfl
  have hnone := (h _ _ _ hout).unquoted hout
  have hquoted : (⟨1, 2, true⟩ : Container) ∈ containers quotedList := by decide
  cases hnone _ hquoted

def bareList : Str := "a=[] b".toList

theorem keepsText_bareList : KeepsText emptyListLibrary bareList bareList :=
  ((keepsText_iff emptyListLibrary bareList).2 bareList rfl).2 (by decide)

end BitcoinRpcOperator.Redaction
