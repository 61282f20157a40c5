import BitcoinRpcOperator.RequestOutcomes

/-!
# What the filter lets through

The proxy decides on its own reading of a body and forwards the bytes. The node reads
them again: it executes the first member called exactly `method`, where the proxy looked
at the last one whose name matches up to case.
-/

namespace BitcoinRpcOperator.FilterSoundness
open Text JsonText RpcRequests ProxyHandler RequestOutcomes

def executedMethod : Json → Option Str
  | .object members =>
    match members.find? fun m => unquote m.1 == "method".toList with
    | some (_, .string raw) => some (unquote raw)
    | _ => none
  | _ => none

/-- The single request of a body, or the elements of its batch. -/
def requestObjects (body : Bytes) : List Json :=
  match bodyValue body with
  | some (.array elements) => elements
  | some value => [value]
  | none => []

def executed (body : Bytes) : List Str := (requestObjects body).filterMap executedMethod

theorem trimRunes_trimRunes (s : Str) : trimRunes (trimRunes s) = trimRunes s := by
  have hfront : (trimRunes s).dropWhile isSpaceRune = trimRunes s := by
    rw [List.dropWhile_eq_self_iff]
    intro hpos
    have hprefix : trimRunes s <+: s.dropWhile isSpaceRune := List.rdropWhile_prefix _ _
    have hlen : 0 < (s.dropWhile isSpaceRune).length := lt_of_lt_of_le hpos hprefix.length_le
    have hhead := List.dropWhile_get_zero_not isSpaceRune s hlen
    have hsame : (trimRunes s)[0] = (s.dropWhile isSpaceRune)[0] := hprefix.getElem hpos
    simpa [hsame] using hhead
  rw [trimRunes, hfront]
  exact List.rdropWhile_idempotent _ _

/-- What an allowlist can permit. -/
def Permittable (method : Str) : Prop := method ≠ [] ∧ trimRunes method = method

theorem baseline_permittable : ∀ m ∈ baseline, Permittable m := by
  unfold Permittable
  decide +kernel

theorem permittable_of_allowed {extend : List Str} {m : Str}
    (h : m ∈ (newAllowlist extend).allowed) : Permittable m := by
  rcases List.mem_append.1 h with h | h
  · exact baseline_permittable m h
  · obtain ⟨hm, hne⟩ := List.mem_filter.1 h
    obtain ⟨e, -, rfl⟩ := List.mem_map.1 hm
    exact ⟨by simpa using hne, trimRunes_trimRunes e⟩

theorem mem_newAllowlist {extend : List Str} {m : Str} (hm : m ∈ extend) (h : Permittable m) :
    m ∈ (newAllowlist extend).allowed := by
  refine List.mem_append.2 (.inr (List.mem_filter.2 ⟨?_, by simpa using h.1⟩))
  exact List.mem_map.2 ⟨m, hm, h.2⟩

/-- Whatever the policy, a body that a filtering handler forwards has the node execute
permitted methods only. -/
def FilterSound (body : Bytes) : Prop :=
  ∀ (extend : List Str) (client : Client) (maxBody : ℕ) (recording : Bool) (net : Net)
    (path : Bytes) (header : Header),
    (Handler.serveHTTP ⟨newAllowlist extend, client, maxBody, true, recording⟩ net
      (fullRequest path header body)).forwarded ≠ [] →
    ∀ m ∈ executed body, m ∈ (newAllowlist extend).allowed

/-- The methods the node would execute are in the baseline or were looked at, unless some
call has a method that no policy permits. -/
def Vetted (body : Bytes) : Prop :=
  ∀ env, RpcRequests.parse body = some env → (∀ call ∈ env.calls, Permittable call.method) →
    ∀ m ∈ executed body, m ∈ baseline ∨ ∃ call ∈ env.calls, call.method = m

theorem not_denied_iff (h : Handler) (hf : h.filter = true) (env : Envelope) :
    ¬ Denied h env ↔ ∀ call ∈ env.calls, call.method ≠ [] ∧ call.method ∈ h.allow.allowed := by
  simp [Denied, hf, not_or]

theorem filterSound_of_vetted {body : Bytes} (hv : Vetted body) : FilterSound body := by
  intro extend client maxBody recording net path header hforwarded m hm
  obtain ⟨-, env, hparse, hdenied⟩ := admitted_of_forwarded hforwarded
  rw [not_denied_iff _ rfl] at hdenied
  have hpermit : ∀ call ∈ env.calls, Permittable call.method := fun call hcall =>
    permittable_of_allowed (hdenied call hcall).2
  rcases hv env hparse hpermit m hm with hbase | ⟨call, hcall, rfl⟩
  · exact List.mem_append_left _ hbase
  · exact (hdenied call hcall).2

theorem vetted_of_filterSound {body : Bytes} (hs : FilterSound body) : Vetted body := by
  intro env hparse hpermit m hm
  -- permit exactly what the proxy reads, besides the baseline
  let extend := env.calls.map (·.method)
  let h : Handler := ⟨newAllowlist extend, ⟨[], []⟩, body.length, true, false⟩
  let net : Net := ⟨fun _ => false, fun _ => .error ⟨false, none⟩⟩
  have hdenied : ¬ Denied h env := by
    rw [not_denied_iff h rfl]
    intro call hcall
    exact ⟨(hpermit call hcall).1, mem_newAllowlist (List.mem_map_of_mem hcall) (hpermit call hcall)⟩
  have hserve : (h.serveHTTP net (fullRequest [] [] body)).forwarded = [⟨[], [], body⟩] :=
    (serveHTTP_forwards (lt_irrefl _) hparse hdenied).1
  have hallowed := hs extend ⟨[], []⟩ body.length false net [] [] (by rw [hserve]; simp) m hm
  rcases List.mem_append.1 hallowed with hbase | hextend
  · exact .inl hbase
  · obtain ⟨e, he, rfl⟩ := List.mem_map.1 (List.mem_filter.1 hextend).1
    obtain ⟨call, hcall, rfl⟩ := List.mem_map.1 he
    exact .inr ⟨call, hcall, (hpermit call hcall).2.symm⟩

/-- The filter is sound on a body exactly when what the node would execute was vetted. -/
theorem filterSound_iff_vetted (body : Bytes) : FilterSound body ↔ Vetted body :=
  ⟨vetted_of_filterSound, filterSound_of_vetted⟩

/-- Where both readers find the same method in every request, the filter is sound. -/
theorem vetted_of_same_reading {body : Bytes}
    (h : ∀ o ∈ requestObjects body, ∀ m, executedMethod o = some m → m = (parseElement o).method) :
    Vetted body := by
  intro env hparse _ m hm
  obtain ⟨o, ho, hexec⟩ := List.mem_filterMap.1 hm
  refine .inr ⟨parseElement o, ?_, (h o ho m hexec).symm⟩
  rw [RpcRequests.parse] at hparse
  obtain ⟨value, hvalue, hparse⟩ := Option.bind_eq_some_iff.1 hparse
  rw [requestObjects, hvalue] at ho
  cases value with
  | object _ =>
    cases hparse
    exact List.mem_map_of_mem ho
  | array _ =>
    cases hparse
    exact List.mem_map_of_mem ho
  | null | bool _ | number _ | string _ => cases hparse

/-- A second member called `method`, which only the proxy looks at. -/
def doubledMethod : Bytes :=
  utf8 "\x7b\"method\":\"stop\",\"method\":\"getblockcount\"\x7d".toList

/-- A policy of the baseline alone lets the node be stopped. -/
theorem filter_passes_stop : ¬ ∀ body, FilterSound body := by
  intro hall
  have hforwarded : (Handler.serveHTTP ⟨newAllowlist [], ⟨[], []⟩, 1024, true, false⟩
      ⟨fun _ => false, fun _ => .error ⟨false, none⟩⟩ (fullRequest [] [] doubledMethod)).forwarded
      ≠ [] := by decide +kernel
  have hstop : "stop".toList ∈ executed doubledMethod := by decide +kernel
  exact absurd (hall doubledMethod _ _ _ _ _ _ _ hforwarded _ hstop) (by decide +kernel)

end BitcoinRpcOperator.FilterSoundness
