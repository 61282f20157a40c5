import BitcoinRpcOperator.ServiceConfiguration
import BitcoinRpcOperator.SystemdArguments

/-!
# The environment files as lines

The files of the monitor and of the proxy are one line for each default, with the options
of the charm in place of some values.
-/

namespace BitcoinRpcOperator.EnvironmentLines
open Text ServiceConfiguration SystemdArguments

/-- The value the charm writes for a variable of the monitor. -/
def monitorValue (config : Config) (key value : Str) : Str :=
  if key = "BITCOIN_RPC_USER".toList ∧ (config .rpcUser).truthy then (config .rpcUser).toText
  else if key = "BITCOIN_RPC_PASSWORD".toList ∧ (config .rpcPassword).truthy then
    (config .rpcPassword).toText
  else value

theorem renderMonitorEnv_eq (config : Config) :
    renderMonitorEnv config =
      lines (monitorEnv.map fun e => (e.1, monitorValue config e.1 e.2)) := by
  rw [renderMonitorEnv, lines, List.flatMap_map]
  rfl

/-- The value the charm writes for a variable of the proxy. -/
def rpcProxyValue (config : Config) (key value : Str) : Str :=
  if key = "PROXY_FILTER".toList then
    if (config .rpcProxyFilter).truthy then "true".toList else "false".toList
  else if (rpcProxyOverride config key).truthy then (rpcProxyOverride config key).toText
  else value

theorem renderRpcProxyEnv_eq (config : Config) :
    renderRpcProxyEnv config =
      lines (rpcProxyEnv.map fun e => (e.1, rpcProxyValue config e.1 e.2)) := by
  rw [renderRpcProxyEnv, lines, List.flatMap_map]
  congr 1
  funext e
  simp only [rpcProxyValue, envLine]
  split
  · rfl
  · split <;> rfl

theorem monitorEnv_names : ∀ e ∈ monitorEnv, e.1 ≠ [] ∧ IsName e.1 := by
  unfold IsName
  decide

theorem rpcProxyEnv_names : ∀ e ∈ rpcProxyEnv, e.1 ≠ [] ∧ IsName e.1 := by
  unfold IsName
  decide

end BitcoinRpcOperator.EnvironmentLines
