import BitcoinRpcOperator.RpcRequests

/-!
# Which members a call is read from

The documented rules go by the members named exactly `jsonrpc`, `method` and `id`. Decoding
into a struct also takes members whose names match up to case, and the last match counts.
-/

namespace BitcoinRpcOperator.CallFields
open Text JsonText RpcRequests

abbrev Members := List (Bytes × Json)

/-- Names as texts, pairwise distinct. -/
def DistinctNames (members : Members) : Prop := (members.map fun m => unquote m.1).Nodup

/-- The member named exactly `name`. -/
def member (name : Str) (members : Members) : Option Json :=
  (members.find? fun m => unquote m.1 == name).map (·.2)

def callFields : List Str := ["jsonrpc".toList, "method".toList, "id".toList]

def named (members : Members) : Members := members.filter fun m => unquote m.1 ∈ callFields

/-- The call is read from the exactly named members, and the others do not matter. -/
structure ExactlyRead (members : Members) : Prop where
  method : (parseElement (.object members)).method =
    extractString (member "method".toList members)
  id : (parseElement (.object members)).id = member "id".toList members
  version : (parseElement (.object members)).version = .v2 ↔
    ∃ raw, member "jsonrpc".toList members = some (.string raw) ∧ unquote raw = "2.0".toList
  others : parseElement (.object members) = parseElement (.object (named members))

/-- The value of the last member whose name matches `name` up to case, when that is another
name. -/
def lookAlike (name : Str) (members : Members) : Option Json :=
  (members.findRev? fun m => foldName (unquote m.1) == foldName name).bind fun m =>
    if unquote m.1 = name then none else some m.2

/-- Where a look-alike is the last match, it reads like the member named exactly. -/
structure Undisturbed (members : Members) : Prop where
  method : ∀ v, lookAlike "method".toList members = some v →
    extractString (some v) = extractString (member "method".toList members)
  id : ∀ v, lookAlike "id".toList members = some v → some v = member "id".toList members
  version : ∀ v, lookAlike "jsonrpc".toList members = some v →
    (extractString (some v) = "2.0".toList ↔
      extractString (member "jsonrpc".toList members) = "2.0".toList)

section
variable {α β : Type} [BEq β] [LawfulBEq β] {key : α → β} {xs : List α}

theorem find?_key_iff (h : (xs.map key).Nodup) (k : β) (a : α) :
    (xs.find? fun x => key x == k) = some a ↔ a ∈ xs ∧ key a = k := by
  constructor
  · intro hfind
    exact ⟨List.mem_of_find?_eq_some hfind, by simpa using List.find?_some hfind⟩
  · rintro ⟨hmem, hkey⟩
    cases hfind : xs.find? fun x => key x == k with
    | none =>
      have hnone := List.find?_eq_none.1 hfind a hmem
      simp [hkey] at hnone
    | some b =>
      have hb : key b = k := by simpa using List.find?_some hfind
      have hsame : b = a := List.inj_on_of_nodup_map h (List.mem_of_find?_eq_some hfind) hmem
        (hb.trans hkey.symm)
      rw [hsame]

/-- Distinct keys are found the same from both ends. -/
theorem findRev?_key (h : (xs.map key).Nodup) (k : β) :
    (xs.findRev? fun x => key x == k) = xs.find? fun x => key x == k := by
  have hreverse : (xs.reverse.map key).Nodup := by
    rw [List.map_reverse]
    exact List.nodup_reverse.2 h
  rw [List.findRev?_eq_find?_reverse]
  ext a
  rw [find?_key_iff hreverse, find?_key_iff h, List.mem_reverse]

end

section
variable {members : Members}

/-- The decoder takes a look-alike before the member named exactly. -/
theorem structField_eq (h : DistinctNames members) (name : Str) :
    structField name members = (lookAlike name members).or (member name members) := by
  rw [structField, lookAlike, member]
  cases hlast : members.findRev? fun m => foldName (unquote m.1) == foldName name with
  | none =>
    have hnone : (members.find? fun m => unquote m.1 == name) = none := by
      rw [List.findRev?_eq_find?_reverse] at hlast
      rw [List.find?_eq_none] at hlast ⊢
      intro m hm hname
      have hmatch := hlast m (List.mem_reverse.2 hm)
      rw [beq_iff_eq.1 hname] at hmatch
      exact hmatch (beq_self_eq_true _)
    rw [hnone]
    rfl
  | some m =>
    have hmem : m ∈ members := by
      rw [List.findRev?_eq_find?_reverse] at hlast
      exact List.mem_reverse.1 (List.mem_of_find?_eq_some hlast)
    by_cases hname : unquote m.1 = name
    · have hfind : (members.find? fun m => unquote m.1 == name) = some m :=
        (find?_key_iff h name m).2 ⟨hmem, hname⟩
      simp [hname, hfind]
    · simp [hname]

/-- Among the three names, matching up to case is being equal. -/
theorem foldName_callFields : ∀ a ∈ callFields, ∀ b ∈ callFields,
    foldName a = foldName b → a = b := by decide

theorem structField_named (h : DistinctNames members) {name : Str} (hname : name ∈ callFields) :
    structField name (named members) = member name members := by
  have hmatch : ∀ m ∈ named members,
      (foldName (unquote m.1) == foldName name) = (unquote m.1 == name) := by
    intro m hm
    have hfield : unquote m.1 ∈ callFields := by simpa using (List.mem_filter.1 hm).2
    rw [Bool.eq_iff_iff, beq_iff_eq, beq_iff_eq]
    exact ⟨foldName_callFields _ hfield _ hname, fun heq => by rw [heq]⟩
  have hdistinct : ((named members).map fun m => unquote m.1).Nodup :=
    h.sublist (List.filter_sublist.map _)
  have hlast : ((named members).findRev? fun m => foldName (unquote m.1) == foldName name) =
      (named members).findRev? fun m => unquote m.1 == name := by
    rw [List.findRev?_eq_find?_reverse, List.findRev?_eq_find?_reverse]
    exact List.find?_congr fun m hm => hmatch m (List.mem_reverse.1 hm)
  have hkept : ((named members).find? fun m => unquote m.1 == name) =
      members.find? fun m => unquote m.1 == name := by
    ext m
    rw [find?_key_iff hdistinct, find?_key_iff h, named, List.mem_filter]
    constructor
    · rintro ⟨⟨hmem, -⟩, heq⟩
      exact ⟨hmem, heq⟩
    · rintro ⟨hmem, heq⟩
      exact ⟨⟨hmem, by simpa [heq] using hname⟩, heq⟩
  rw [structField, hlast, findRev?_key hdistinct, hkept, member]

theorem or_reads_iff {α β : Type} (read : Option α → β) (look exact : Option α) :
    read (look.or exact) = read exact ↔ ∀ v, look = some v → read (some v) = read exact := by
  cases look with
  | none => simp
  | some v => simp

theorem version_iff (v : Option Json) :
    detectVersion v = .v2 ↔ extractString v = "2.0".toList := by
  rw [detectVersion]
  split
  · exact iff_of_true rfl ‹_›
  · exact iff_of_false (fun h => by cases h) ‹_›

theorem version_eq_iff (v w : Option Json) : detectVersion v = detectVersion w ↔
    (extractString v = "2.0".toList ↔ extractString w = "2.0".toList) := by
  rw [← version_iff, ← version_iff]
  cases detectVersion v <;> cases detectVersion w <;> decide

theorem extractString_iff (v : Option Json) : extractString v = "2.0".toList ↔
    ∃ raw, v = some (.string raw) ∧ unquote raw = "2.0".toList := by
  constructor
  · intro h
    unfold extractString at h
    split at h
    · exact ⟨_, rfl, h⟩
    · cases h
  · rintro ⟨raw, rfl, h⟩
    exact h

theorem parseElement_named (h : DistinctNames members) :
    parseElement (.object (named members)) =
      ⟨extractString (member "method".toList members), member "id".toList members,
        detectVersion (member "jsonrpc".toList members)⟩ := by
  rw [parseElement, structField_named h (by decide), structField_named h (by decide),
    structField_named h (by decide)]

/-- Leaving the other members out changes nothing exactly when no look-alike is read. -/
theorem parseElement_eq_named_iff (h : DistinctNames members) :
    parseElement (.object members) = parseElement (.object (named members)) ↔
      Undisturbed members := by
  have hmethod := or_reads_iff extractString (lookAlike "method".toList members)
    (member "method".toList members)
  have hid := or_reads_iff (fun v : Option Json => v) (lookAlike "id".toList members)
    (member "id".toList members)
  have hversion := or_reads_iff detectVersion (lookAlike "jsonrpc".toList members)
    (member "jsonrpc".toList members)
  rw [parseElement_named h, parseElement, structField_eq h, structField_eq h, structField_eq h,
    Call.mk.injEq, hmethod, hid, hversion]
  simp only [version_eq_iff]
  constructor
  · rintro ⟨hm, hi, hv⟩
    exact ⟨hm, hi, hv⟩
  · intro hu
    exact ⟨hu.method, hu.id, hu.version⟩

/-- The rules hold of an object exactly when no look-alike is read in place of a member. -/
theorem exactlyRead_iff (h : DistinctNames members) :
    ExactlyRead members ↔ Undisturbed members := by
  rw [← parseElement_eq_named_iff h]
  refine ⟨fun hexact => hexact.others, fun hothers => ?_⟩
  have hread := hothers.trans (parseElement_named h)
  refine ⟨by rw [hread], by rw [hread], ?_, hothers⟩
  rw [hread, version_iff, extractString_iff]

end

/-- `{"id": 1, "Method": "getblockcount"}` -/
def capitalMethod : Members :=
  [(utf8 "id".toList, .number (utf8 "1".toList)),
    (utf8 "Method".toList, .string (utf8 "getblockcount".toList))]

/-- The method is absent, and the call is one of `getblockcount`. -/
theorem capitalMethod_is_read : ¬ ∀ members, DistinctNames members → ExactlyRead members := by
  intro hall
  have hdistinct : DistinctNames capitalMethod := by
    unfold DistinctNames
    decide +kernel
  have hmethod := (hall capitalMethod hdistinct).method
  revert hmethod
  decide +kernel

/-- `{"Params": [], "id": null, "method": "uptime"}` -/
def lowerMethod : Members :=
  [(utf8 "Params".toList, .array []), (utf8 "id".toList, .null),
    (utf8 "method".toList, .string (utf8 "uptime".toList))]

theorem exactlyRead_lowerMethod : ExactlyRead lowerMethod := by
  have hdistinct : DistinctNames lowerMethod := by
    unfold DistinctNames
    decide +kernel
  have hnone : ∀ name ∈ callFields, lookAlike name lowerMethod = none := by
    intro name hname
    simp only [callFields, List.mem_cons, List.not_mem_nil, or_false] at hname
    rcases hname with rfl | rfl | rfl <;> rfl
  refine (exactlyRead_iff hdistinct).2 ⟨fun v hv => ?_, fun v hv => ?_, fun v hv => ?_⟩
  · rw [hnone _ (by decide)] at hv
    cases hv
  · rw [hnone _ (by decide)] at hv
    cases hv
  · rw [hnone _ (by decide)] at hv
    cases hv

end BitcoinRpcOperator.CallFields
