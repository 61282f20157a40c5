import BitcoinRpcOperator.ProxyHandler

/-!
# Headers of forwarded requests

What `Forward` makes of the headers of a caller: the hop-by-hop ones are dropped, the others
keep their values, and the credentials of the proxy stand in for missing ones. The code
decides what is missing by the first value alone.
-/

namespace BitcoinRpcOperator.ProxyHandler
open Text

namespace Header

theorem values_congr {h : Header} {key key' : Str}
    (hkey : canonicalHeaderKey key = canonicalHeaderKey key') : h.values key = h.values key' := by
  rw [values, values, hkey]

theorem values_replace (h : Header) (name key : Str) (vals : List Str) :
    values ((name, vals) :: h.filter fun e => e.1 != name) key =
      if canonicalHeaderKey key = name then vals else h.values key := by
  by_cases hname : canonicalHeaderKey key = name
  · rw [if_pos hname]
    simp [values, hname]
  · have hfind : (h.filter fun e => e.1 != name).find? (fun e => e.1 == canonicalHeaderKey key) =
        h.find? fun e => e.1 == canonicalHeaderKey key := by
      rw [List.find?_filter]
      congr 1
      funext e
      by_cases he : e.1 = canonicalHeaderKey key
      · simp [he, hname]
      · simp [he]
    rw [if_neg hname, values, List.find?_cons_of_neg (by simpa using Ne.symm hname), hfind, values]

theorem values_set (h : Header) (k v key : Str) :
    (h.set k v).values key =
      if canonicalHeaderKey key = canonicalHeaderKey k then [v] else h.values key :=
  values_replace h (canonicalHeaderKey k) key [v]

theorem values_add (h : Header) (k v key : Str) :
    (h.add k v).values key =
      if canonicalHeaderKey key = canonicalHeaderKey k then h.values k ++ [v] else h.values key :=
  values_replace h (canonicalHeaderKey k) key (h.values k ++ [v])

theorem values_addAll (h : Header) (k key : Str) (vals : List Str) :
    (vals.foldl (fun dst v => dst.add k v) h).values key =
      if canonicalHeaderKey key = canonicalHeaderKey k then h.values k ++ vals
      else h.values key := by
  induction vals generalizing h with
  | nil =>
    split
    next hkey => simpa using values_congr hkey
    next => rfl
  | cons v vals ih =>
    rw [List.foldl_cons, ih, values_add, values_add, if_pos rfl]
    split
    · simp
    · rfl

theorem mem_replace {h : Header} {name : Str} {vals : List Str} {e : Str × List Str}
    (he : e ∈ (name, vals) :: h.filter fun e => e.1 != name) : e.1 = name ∨ e ∈ h := by
  rcases List.mem_cons.1 he with rfl | he
  · exact .inl rfl
  · exact .inr (List.mem_filter.1 he).1

theorem mem_addAll {h : Header} {k : Str} {vals : List Str} {e : Str × List Str}
    (he : e ∈ vals.foldl (fun dst v => dst.add k v) h) : e.1 = canonicalHeaderKey k ∨ e ∈ h := by
  induction vals generalizing h with
  | nil => exact .inr he
  | cons v vals ih =>
    rcases ih he with he | he
    · exact .inl he
    · exact mem_replace he

end Header

/-- An inbound header: a key occurs once, in canonical form. -/
structure InboundHeader where
  entries : Header
  distinct : (entries.map (·.1)).Nodup
  canonical : ∀ e ∈ entries, canonicalHeaderKey e.1 = e.1

theorem values_copyForwardHeaders {src : Header} (hdistinct : (src.map (·.1)).Nodup)
    (hcanonical : ∀ e ∈ src, canonicalHeaderKey e.1 = e.1) (dst : Header) {key : Str}
    (hkey : canonicalHeaderKey key ∉ hopByHop) :
    (copyForwardHeaders dst src).values key = dst.values key ++ src.values key := by
  induction src generalizing dst with
  | nil => simp [copyForwardHeaders, Header.values]
  | cons e src ih =>
    obtain ⟨name, vals⟩ := e
    obtain ⟨hfresh, hdistinct⟩ := List.nodup_cons.1 hdistinct
    have hname : canonicalHeaderKey name = name := hcanonical (name, vals) (by simp)
    have hrest := ih hdistinct fun e he => hcanonical e (List.mem_cons_of_mem _ he)
    change (copyForwardHeaders (if hopByHop.contains (canonicalHeaderKey name) then dst
      else vals.foldl (fun dst v => dst.add name v) dst) src).values key = _
    rw [hrest, hname]
    by_cases heq : canonicalHeaderKey key = name
    · have habsent : Header.values src key = [] := by
        have hfind : src.find? (fun e => e.1 == canonicalHeaderKey key) = none := by
          rw [List.find?_eq_none]
          intro e he
          have hne : e.1 ≠ name := fun h => hfresh (List.mem_map.2 ⟨e, he, h⟩)
          simpa [heq] using hne
        rw [Header.values, hfind]
        rfl
      have hhere : Header.values ((name, vals) :: src) key = vals := by simp [Header.values, heq]
      have hvisible : hopByHop.contains name = false := by
        rw [← heq]
        simpa using hkey
      have hsame : dst.values name = dst.values key :=
        Header.values_congr (by rw [hname, heq])
      rw [habsent, hhere, hvisible, if_neg Bool.false_ne_true, Header.values_addAll, hname,
        if_pos heq, List.append_nil, hsame]
    · have hlater : Header.values ((name, vals) :: src) key = Header.values src key := by
        rw [Header.values, List.find?_cons_of_neg (by simpa using Ne.symm heq), Header.values]
      rw [hlater]
      split
      · rfl
      · rw [Header.values_addAll, hname, if_neg heq]

theorem copyForwardHeaders_noHopByHop (src : Header) {dst : Header}
    (hdst : ∀ e ∈ dst, e.1 ∉ hopByHop) : ∀ e ∈ copyForwardHeaders dst src, e.1 ∉ hopByHop := by
  induction src generalizing dst with
  | nil => exact hdst
  | cons e src ih =>
    obtain ⟨name, vals⟩ := e
    refine ih ?_
    change ∀ e ∈ (if hopByHop.contains (canonicalHeaderKey name) then dst
      else vals.foldl (fun dst v => dst.add name v) dst), e.1 ∉ hopByHop
    split
    · exact hdst
    · rename_i hname
      intro e he
      rcases Header.mem_addAll he with he | he
      · rw [he]
        simpa using hname
      · exact hdst e he

def contentTypeKey : Str := "Content-Type".toList

def authorizationKey : Str := "Authorization".toList

/-- What the headers of a forwarded request are to be, given those of the caller and the
credentials of the proxy. -/
structure ForwardsHeaders (user password : Str) (caller upstream : Header) : Prop where
  hopByHop : ∀ e ∈ upstream, e.1 ∉ hopByHop
  contentType : upstream.values contentTypeKey = ["application/json".toList]
  others : ∀ key, canonicalHeaderKey key ∉ ProxyHandler.hopByHop →
    canonicalHeaderKey key ≠ contentTypeKey → canonicalHeaderKey key ≠ authorizationKey →
      upstream.values key = caller.values key
  callerCredentials : (∃ v ∈ caller.values authorizationKey, v ≠ []) →
    upstream.values authorizationKey = caller.values authorizationKey
  ownCredentials : (∀ v ∈ caller.values authorizationKey, v = []) → user ≠ [] →
    upstream.values authorizationKey = [basicAuth user password]
  noCredentials : (∀ v ∈ caller.values authorizationKey, v = []) → user = [] →
    ∀ v ∈ upstream.values authorizationKey, v = []

theorem basicAuth_eq_nil {user password : Str} : basicAuth user password = [] ↔ user = [] := by
  unfold basicAuth
  split
  next huser => simp [huser]
  next huser => simp [huser]

def forwardedHeader (caller : Header) : Header :=
  (copyForwardHeaders [] caller).set contentTypeKey "application/json".toList

theorem values_forwardedHeader (caller : InboundHeader) {key : Str}
    (hkey : canonicalHeaderKey key ∉ hopByHop) :
    (forwardedHeader caller.entries).values key =
      if canonicalHeaderKey key = contentTypeKey then ["application/json".toList]
      else caller.entries.values key := by
  have hcontent : canonicalHeaderKey contentTypeKey = contentTypeKey := by decide +kernel
  rw [forwardedHeader, Header.values_set, hcontent,
    values_copyForwardHeaders caller.distinct caller.canonical [] hkey]
  rfl

theorem forwardedHeader_noHopByHop (caller : Header) :
    ∀ e ∈ forwardedHeader caller, e.1 ∉ hopByHop := by
  intro e he
  rcases Header.mem_replace he with he | he
  · rw [he]
    decide +kernel
  · exact copyForwardHeaders_noHopByHop caller (by simp) e he

section
variable (client : Client) (path : Bytes) (caller : InboundHeader) (body : Bytes)

/-- The credentials of the proxy go in when it has some and the first value of the caller
is empty or missing. -/
theorem upstreamRequest_header : (client.upstreamRequest path caller.entries body).header =
    if client.authHeader ≠ [] ∧ caller.entries.get authorizationKey = [] then
      (forwardedHeader caller.entries).set authorizationKey client.authHeader
    else forwardedHeader caller.entries := by
  have hvisible : canonicalHeaderKey authorizationKey ∉ hopByHop := by decide +kernel
  have hother : canonicalHeaderKey authorizationKey ≠ contentTypeKey := by decide +kernel
  have hget : (forwardedHeader caller.entries).get authorizationKey =
      caller.entries.get authorizationKey := by
    rw [Header.get, values_forwardedHeader caller hvisible, if_neg hother, Header.get]
  have hcases : (client.upstreamRequest path caller.entries body).header =
      if client.authHeader ≠ [] ∧ (forwardedHeader caller.entries).get authorizationKey = []
      then (forwardedHeader caller.entries).set authorizationKey client.authHeader
      else forwardedHeader caller.entries := rfl
  rw [hcases, hget]

theorem upstreamRequest_noHopByHop :
    ∀ e ∈ (client.upstreamRequest path caller.entries body).header, e.1 ∉ hopByHop := by
  rw [upstreamRequest_header]
  split
  · intro e he
    rcases Header.mem_replace he with he | he
    · rw [he]
      decide +kernel
    · exact forwardedHeader_noHopByHop caller.entries e he
  · exact forwardedHeader_noHopByHop caller.entries

theorem values_upstreamRequest {key : Str} (hkey : canonicalHeaderKey key ∉ hopByHop)
    (hother : canonicalHeaderKey key ≠ authorizationKey) :
    (client.upstreamRequest path caller.entries body).header.values key =
      if canonicalHeaderKey key = contentTypeKey then ["application/json".toList]
      else caller.entries.values key := by
  have hauth : canonicalHeaderKey authorizationKey = authorizationKey := by decide +kernel
  rw [upstreamRequest_header]
  split
  · rw [Header.values_set, hauth, if_neg hother, values_forwardedHeader caller hkey]
  · exact values_forwardedHeader caller hkey

theorem authorization_upstreamRequest :
    (client.upstreamRequest path caller.entries body).header.values authorizationKey =
      if client.authHeader ≠ [] ∧ caller.entries.get authorizationKey = [] then [client.authHeader]
      else caller.entries.values authorizationKey := by
  have hvisible : canonicalHeaderKey authorizationKey ∉ hopByHop := by decide +kernel
  have hother : canonicalHeaderKey authorizationKey ≠ contentTypeKey := by decide +kernel
  rw [upstreamRequest_header]
  split
  · rw [Header.values_set, if_pos rfl]
  · rw [values_forwardedHeader caller hvisible, if_neg hother]

/-- What `Forward` makes of the headers of a caller. -/
structure PassesHeaders (caller upstream : Header) : Prop where
  hopByHop : ∀ e ∈ upstream, e.1 ∉ ProxyHandler.hopByHop
  contentType : upstream.values contentTypeKey = ["application/json".toList]
  others : ∀ key, canonicalHeaderKey key ∉ ProxyHandler.hopByHop →
    canonicalHeaderKey key ≠ contentTypeKey → canonicalHeaderKey key ≠ authorizationKey →
      upstream.values key = caller.values key
  credentials : upstream.values authorizationKey =
    if client.authHeader ≠ [] ∧ caller.get authorizationKey = [] then [client.authHeader]
    else caller.values authorizationKey

theorem upstreamRequest_passesHeaders :
    PassesHeaders client caller.entries (client.upstreamRequest path caller.entries body).header where
  hopByHop := upstreamRequest_noHopByHop client path caller body
  contentType := by
    have hcontent : canonicalHeaderKey contentTypeKey = contentTypeKey := by decide +kernel
    have hvisible : contentTypeKey ∉ hopByHop := by decide +kernel
    have hdistinct : contentTypeKey ≠ authorizationKey := by decide +kernel
    rw [values_upstreamRequest client path caller body (by rwa [hcontent]) (by rwa [hcontent]), if_pos hcontent]
  others key hkey hne hother := by
    rw [values_upstreamRequest client path caller body hkey hother, if_neg hne]
  credentials := authorization_upstreamRequest client path caller body

end

/-- The headers of the request that `Forward` sends with the given credentials. -/
def upstreamHeader (client : Client) (user password : Str) (path : Bytes) (caller : InboundHeader)
    (body : Bytes) : Header :=
  ((client.setUpstreamAuth user password).upstreamRequest path caller.entries body).header

theorem authorization_upstreamHeader (client : Client) (user password : Str) (path : Bytes)
    (caller : InboundHeader) (body : Bytes) :
    (upstreamHeader client user password path caller body).values authorizationKey =
      if user ≠ [] ∧ caller.entries.get authorizationKey = [] then [basicAuth user password]
      else caller.entries.values authorizationKey := by
  have hvalues := authorization_upstreamRequest (client.setUpstreamAuth user password) path caller body
  simp only [Client.setUpstreamAuth, ne_eq, basicAuth_eq_nil] at hvalues
  exact hvalues

theorem get_eq_nil_of_all {h : Header} {key : Str} (hall : ∀ v ∈ h.values key, v = []) :
    h.get key = [] := by
  rw [Header.get]
  cases hvalues : h.values key with
  | nil => rfl
  | cons v vs => exact hall v (by simp [hvalues])

/-- The headers are forwarded as they should be unless the proxy has credentials and the
caller puts an empty value in front of its own. -/
theorem upstreamHeader_forwards_iff (client : Client) (user password : Str) (path : Bytes)
    (caller : InboundHeader) (body : Bytes) :
    ForwardsHeaders user password caller.entries
        (upstreamHeader client user password path caller body) ↔
      (user ≠ [] → (caller.entries.values authorizationKey).head? = some [] →
        ∀ v ∈ caller.entries.values authorizationKey, v = []) := by
  have hpasses := upstreamRequest_passesHeaders (client.setUpstreamAuth user password) path caller body
  have hauth := authorization_upstreamHeader client user password path caller body
  constructor
  · intro hforwards huser hhead
    by_contra hsome
    have hexists : ∃ v ∈ caller.entries.values authorizationKey, v ≠ [] := by
      push Not at hsome
      exact hsome
    have hget : caller.entries.get authorizationKey = [] := by
      rw [Header.get, List.headD_eq_head?_getD, hhead]
      rfl
    have hcaller := hforwards.callerCredentials hexists
    rw [hauth, if_pos ⟨huser, hget⟩] at hcaller
    rw [← hcaller, List.head?_cons, Option.some.injEq, basicAuth_eq_nil] at hhead
    exact huser hhead
  · intro hfirst
    refine ⟨hpasses.hopByHop, hpasses.contentType, hpasses.others, ?_, ?_, ?_⟩
    · rintro ⟨v, hv, hne⟩
      rw [hauth, if_neg]
      rintro ⟨huser, hget⟩
      refine hne (hfirst huser ?_ v hv)
      obtain ⟨first, rest, hvalues⟩ := List.exists_cons_of_ne_nil (List.ne_nil_of_mem hv)
      rw [Header.get, hvalues] at hget
      rw [hvalues, List.head?_cons]
      exact congrArg some hget
    · intro hall huser
      rw [hauth, if_pos ⟨huser, get_eq_nil_of_all hall⟩]
    · intro hall huser
      rw [hauth, if_neg fun h => h.1 huser]
      exact hall

/-- An empty value in front of a token: the caller's credentials are replaced. -/
def emptyThenToken : InboundHeader where
  entries := [("Authorization".toList, [[], "Bearer a".toList])]
  distinct := by simp
  canonical := by decide +kernel

theorem upstreamHeader_replaces_credentials :
    ¬ ∀ (client : Client) (user password : Str) (path : Bytes) (caller : InboundHeader) (body : Bytes),
      ForwardsHeaders user password caller.entries
        (upstreamHeader client user password path caller body) := by
  intro hall
  have hcaller := (hall ⟨[], []⟩ "u".toList "p".toList [] emptyThenToken
    []).callerCredentials ⟨"Bearer a".toList, by decide +kernel, by decide⟩
  exact absurd hcaller (by decide +kernel)

end BitcoinRpcOperator.ProxyHandler
