import BitcoinRpcOperator.CharmEnvironments
import BitcoinRpcOperator.ProxyRouting

/-!
# What clients of a deployment can make the node do

The charm, its environment file, systemd's reading of it, the proxy that `New` sets up on that,
its routers and its filter, one after the other: a policy that the operator's options keep to is
kept by every proxy that is ever started.
-/

namespace BitcoinRpcOperator.DeployedPolicy
open Text JsonText RpcRequests ProxyHandler ProxyConfiguration ProxyRouting HealthPolling
open ServiceConfiguration EnvironmentLines SystemdArguments HostSystem CharmHooks EventLog CharmFootprint
open CharmEnvironments GenerationFiles

/-- A health probe, or calls that, as the filter reads them, are of the baseline or of the policy. -/
def Harmless (policy : Set Str) (out : HttpRequest) : Prop :=
  out.body = getblockcountBody ∨
    ∃ env, RpcRequests.parse out.body = some env ∧
      ∀ call ∈ env.calls, call.method ∈ baseline ∨ call.method ∈ policy

/-- However this file is read, a proxy that starts on it lets nothing else through to the node,
whatever it is asked. -/
def PolicedFile (policy : Set Str) (data : Bytes) : Prop :=
  ∀ text, utf8 text = data → ∀ (golib : GoLibrary) (cfg : ProxyConfig) (flag : Bool),
    parse golib {} (fun name => variableValue name text) = .ok (cfg, flag) →
      ∀ (version urlError : Str) (ls : List ProxyRouting.Label),
        ∀ out ∈ (ProxyRouting.run (newApp cfg version urlError) {} ls).upstream, Harmless policy out

/-- The filter is on, the list of further methods keeps to the policy, no option needs quoting,
and an interrupted write leaves no other file. -/
structure WithinPolicy (policy : Set Str) (d : Dispatch) : Prop where
  filter : (d.config .rpcProxyFilter).truthy = true
  extension : ∀ entry ∈ (d.config .rpcProxyExtendAllowlist).orEmpty.splitOn ',',
    trimRunes entry ≠ [] → trimRunes entry ∈ policy
  bare : ∀ k s, d.config k = .str s → Bare s
  interrupted : Tame (fun s data => s = .rpcProxy → PolicedFile policy data) d.environment

section
variable {policy : Set Str} {config : Config}

theorem variableValue_extension (hbare : ∀ k s, config k = .str s → Bare s) :
    variableValue "PROXY_EXTEND_ALLOWLIST".toList (renderRpcProxyEnv config) =
      some (stripBy isBlank (config .rpcProxyExtendAllowlist).orEmpty) := by
  have hlast : rpcProxyEnv.findRev? (·.1 == "PROXY_EXTEND_ALLOWLIST".toList) =
      some ("PROXY_EXTEND_ALLOWLIST".toList, []) := by decide
  exact variableValue_rpcProxy hbare hlast

/-- A configuration that is read back permits the baseline and what the option lists. -/
theorem allowed_render (hbare : ∀ k s, config k = .str s → Bare s) {golib : GoLibrary} {cfg : ProxyConfig}
    {flag : Bool} (hparse : parse golib {} (fun name => variableValue name (renderRpcProxyEnv config)) = .ok (cfg, flag))
    {m : Str} (hm : m ∈ (newAllowlist cfg.extendAllowlist).allowed) :
    m ∈ baseline ∨ m ≠ [] ∧
      ∃ entry ∈ (config .rpcProxyExtendAllowlist).orEmpty.splitOn ',', m = trimRunes entry := by
  have hextend := (parse_policy hparse).1
  rw [variableValue_extension hbare, Option.getD_some] at hextend
  have hpermits : (newAllowlist cfg.extendAllowlist).permits m = true := decide_eq_true hm
  rw [hextend, PolicyHandOff.permits_parseExtendList] at hpermits
  rcases hpermits with hbase | ⟨hne, entry, hentry, heq⟩
  · exact .inl hbase
  have htrimmed : m ∈ ((config .rpcProxyExtendAllowlist).orEmpty.splitOn ',').map trimRunes := by
    rw [← PolicyHandOff.map_trim_splitOn_strip]
    exact List.mem_map.2 ⟨entry, hentry, heq.symm⟩
  obtain ⟨entry', hentry', heq'⟩ := List.mem_map.1 htrimmed
  exact .inr ⟨hne, entry', hentry', heq'.symm⟩

/-- What a proxy within the policy sends on is harmless. -/
theorem harmless_of_sends {app : App} (hallowed : ∀ m ∈ app.rpc.allow.allowed, m ∈ baseline ∨ m ∈ policy)
    {l : ProxyRouting.Label} {out : HttpRequest} (h : Sends app l out) : Harmless policy out := by
  cases l with
  | poll net =>
    obtain rfl := h
    exact .inl rfl
  | request listener net r =>
    obtain ⟨-, hpassed⟩ := h
    obtain ⟨env, hparse, hcalls⟩ := hpassed.calls
    refine .inr ⟨env, ?_, fun call hcall => hallowed _ (hcalls call hcall).2⟩
    rw [hpassed.body, hparse]

theorem policedFile_render (hfilter : (config .rpcProxyFilter).truthy = true)
    (hextension : ∀ entry ∈ (config .rpcProxyExtendAllowlist).orEmpty.splitOn ',',
      trimRunes entry ≠ [] → trimRunes entry ∈ policy)
    (hbare : ∀ k s, config k = .str s → Bare s) : PolicedFile policy (utf8 (renderEnv config .rpcProxy)) := by
  intro text htext golib cfg flag hparse version urlError ls out hout
  have hon : cfg.filter = true := filteringFile_cut hfilter hbare (List.prefix_refl _) text htext golib cfg flag hparse
  obtain rfl : text = renderRpcProxyEnv config := utf8_injective htext
  have hallowed : ∀ m ∈ (newApp cfg version urlError).rpc.allow.allowed, m ∈ baseline ∨ m ∈ policy := by
    intro m hm
    rcases allowed_render hbare hparse hm with hbase | ⟨hne, entry, hentry, rfl⟩
    · exact .inl hbase
    · exact .inr (hextension entry hentry hne)
  obtain ⟨l, -, hsends⟩ := @mem_upstream (newApp cfg version urlError) ls hon out hout
  exact harmless_of_sends hallowed hsends

/-- Through every run of hooks and actions, whatever raises and is rolled back: whichever proxy is
started on the environment that is laid out for it, or was, clients get nothing past it that the
policy does not have, by any sequence of requests to either of its listeners. -/
theorem run_policed (lib : ReleaseInstaller.Library) (redaction : Redaction.Library) {c : Deployment}
    {ds : List Dispatch} (hstart : Keeps (PolicedFile policy) .rpcProxy c.host)
    (hds : ∀ d ∈ ds, Hook.writes d.hook = true → WithinPolicy policy d) :
    Keeps (PolicedFile policy) .rpcProxy (EventLog.run lib setResults redaction c ds).host :=
  keeps_run hstart fun d hd hhook => by
    obtain ⟨hfilter, hextension, hbare, hinterrupted⟩ := hds d hd hhook
    exact ⟨policedFile_render hfilter hextension hbare, hinterrupted⟩

end

def peerMethods : Set Str := fun m => m ∈ ["getpeerinfo".toList, "getnetworkinfo".toList]

def peerOptions : Config :=
  Function.update (Function.update noOptions .rpcProxyFilter (.bool true)) .rpcProxyExtendAllowlist
    (.str " getpeerinfo,, getnetworkinfo".toList)

def extended : List Dispatch := brought.map fun d => { d with config := peerOptions }

theorem run_policed_extended : Keeps (PolicedFile peerMethods) .rpcProxy
    (EventLog.run ReleaseAtomicity.emptyMirror setResults Redaction.readsNothing
      (undeployed ReleaseAtomicity.freshWorld.host) extended).host := by
  have hstart : Keeps (PolicedFile peerMethods) .rpcProxy (undeployed ReleaseAtomicity.freshWorld.host).host :=
    ⟨fun f hf => absurd hf (Option.some_ne_none f).symm, fun f hf => absurd hf (Option.some_ne_none f).symm⟩
  refine run_policed _ _ hstart fun d hd _ => ?_
  rw [extended, List.mem_map] at hd
  obtain ⟨d', hd', rfl⟩ := hd
  have hcalm : ({ d' with config := peerOptions } : Dispatch).environment = ReleaseAtomicity.calm := by
    simp only [brought, List.mem_cons, List.not_mem_nil, or_false] at hd'
    rcases hd' with rfl | rfl <;> rfl
  refine ⟨rfl, ?_, fun k s hk => ?_, ?_⟩
  · show ∀ entry ∈ " getpeerinfo,, getnetworkinfo".toList.splitOn ',', trimRunes entry ≠ [] →
      trimRunes entry ∈ ["getpeerinfo".toList, "getnetworkinfo".toList]
    decide
  · cases k with
    | rpcProxyExtendAllowlist =>
      obtain rfl : " getpeerinfo,, getnetworkinfo".toList = s := Value.str.inj hk
      unfold Bare
      decide
    | _ => cases hk
  · intro hist s m f hm
    rw [hcalm] at hm
    cases hm

end BitcoinRpcOperator.DeployedPolicy
