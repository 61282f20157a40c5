import BitcoinRpcOperator.FallibleProcedures
import BitcoinRpcOperator.RaisedExceptions
import BitcoinRpcOperator.Text
import BitcoinRpcOperator.Backtracking
import BitcoinRpcOperator.ServiceConfiguration
import BitcoinRpcOperator.HostSystem
import BitcoinRpcOperator.ReleaseInstaller
import BitcoinRpcOperator.ConfigTransaction
import BitcoinRpcOperator.HostSteps
import BitcoinRpcOperator.HostFrames
import BitcoinRpcOperator.ReleaseAtomicity
import BitcoinRpcOperator.TransactionAtomicity
import BitcoinRpcOperator.ServicePreservation
import BitcoinRpcOperator.GenerationFiles
import BitcoinRpcOperator.ProcessGenerations
import BitcoinRpcOperator.CharmHooks
import BitcoinRpcOperator.JsonText
import BitcoinRpcOperator.JsonRoundTrip
import BitcoinRpcOperator.RpcRequests
import BitcoinRpcOperator.MarshalledText
import BitcoinRpcOperator.JsonGrammar
import BitcoinRpcOperator.RequestBodies
import BitcoinRpcOperator.ProxyHandler
import BitcoinRpcOperator.RequestOutcomes
import BitcoinRpcOperator.FilterSoundness
import BitcoinRpcOperator.HeaderForwarding
import BitcoinRpcOperator.UrlText
import BitcoinRpcOperator.PathForwarding
import BitcoinRpcOperator.ErrorReplies
import BitcoinRpcOperator.SystemdArguments
import BitcoinRpcOperator.LoopbackPin
import BitcoinRpcOperator.Transducers
import BitcoinRpcOperator.QuotedArguments
import BitcoinRpcOperator.EnvironmentLines
import BitcoinRpcOperator.CredentialAgreement
import BitcoinRpcOperator.ProxyConfiguration
import BitcoinRpcOperator.PolicyHandOff
import BitcoinRpcOperator.PythonValues
import BitcoinRpcOperator.Redaction
import BitcoinRpcOperator.RedactionFailures
import BitcoinRpcOperator.RedactionScanning
import BitcoinRpcOperator.StructuredRedaction
import BitcoinRpcOperator.LiteralRedaction
import BitcoinRpcOperator.ContainerEnds
import BitcoinRpcOperator.EventLog
import BitcoinRpcOperator.PrometheusRequests
import BitcoinRpcOperator.SurroundingText
import BitcoinRpcOperator.PatternMatches
import BitcoinRpcOperator.PartedSubstitution
import BitcoinRpcOperator.RedactionPatterns
import BitcoinRpcOperator.InnocuousText
import BitcoinRpcOperator.CommandLinePasses
import BitcoinRpcOperator.TokenEnds
import BitcoinRpcOperator.AuthorizedWords
import BitcoinRpcOperator.OptionRedaction
import BitcoinRpcOperator.CommandLineRedaction
import BitcoinRpcOperator.ArgumentHardening
import BitcoinRpcOperator.CallFields
import BitcoinRpcOperator.Dictionaries
import BitcoinRpcOperator.RequestMetrics
import BitcoinRpcOperator.MetricCardinality
import BitcoinRpcOperator.ShellWords
import BitcoinRpcOperator.EffectiveFlags
import BitcoinRpcOperator.FallbackFlags
import BitcoinRpcOperator.VersionPattern
import BitcoinRpcOperator.ReleaseVersions
import BitcoinRpcOperator.ReleaseUrlAgreement
import BitcoinRpcOperator.RestoreIndependence
import BitcoinRpcOperator.BinaryFloats
import BitcoinRpcOperator.FloatText
import BitcoinRpcOperator.MetadataCollection
import BitcoinRpcOperator.MetadataFailures
import BitcoinRpcOperator.CpuQuota
import BitcoinRpcOperator.TransitionSystems
import BitcoinRpcOperator.Interleavings
import BitcoinRpcOperator.ProxyLifecycle
import BitcoinRpcOperator.RequestConcurrency
import BitcoinRpcOperator.HealthProbe
import BitcoinRpcOperator.HealthPolling
import BitcoinRpcOperator.Base64Text
import BitcoinRpcOperator.MockNode
import BitcoinRpcOperator.CharmFootprint
import BitcoinRpcOperator.CharmEnvironments
import BitcoinRpcOperator.CharmServices
import BitcoinRpcOperator.UploadSecrecy
import BitcoinRpcOperator.PathCleaning
import BitcoinRpcOperator.ProxyRouting
import BitcoinRpcOperator.DeployedPolicy
import BitcoinRpcOperator.MonitorGauges
import BitcoinRpcOperator.MonitorReadings
