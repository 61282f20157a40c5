import BitcoinRpcOperator.CharmHooks
import BitcoinRpcOperator.MetadataCollection
import BitcoinRpcOperator.RaisedExceptions
import BitcoinRpcOperator.RedactionFailures

/-!
# When collecting metadata aborts the hook

The handlers of `collect_upload_metadata` name six classes of exceptions and redact the
text of what they catch. An exception of another class passes through them, and so does
one that the redaction raises.
-/

namespace BitcoinRpcOperator.MetadataFailures
open Text Backtracking Dictionaries PythonValues RaisedExceptions EffectiveFlags FallbackFlags
open MetadataCollection
open Redaction (Clean Returns redactRuntimeValue redactOutput)

variable (lib : Library)

/-- A handler catches it and can show its text. -/
def Reported : Exc → Prop
  | .osError m | .requestException m | .runtimeError m | .valueError m | .validation m
  | .upload m => Clean lib.redaction m
  | .attributeError | .typeError | .memoryError | .calledProcessError => False

/-- What redaction raises, if anything, a handler catches and can show. -/
def Tolerated {α : Type} (x : Except PythonError α) : Prop :=
  ∀ e, x = .error e → Reported lib (pythonExc e)

section
variable {lib}

theorem returns_iff_clean (value : Str) :
    Returns (redactRuntimeValue lib.redaction value) ↔ Clean lib.redaction value :=
  Redaction.redactWithin_returns _ _ value

theorem raisesOnly_redacting {α : Type} (x : Except PythonError α) :
    RaisesOnly (Reported lib) (redacting x) ↔ Tolerated lib x := raisesOnly_mapError

theorem raisesOnly_redact (value : Str) :
    RaisesOnly (Reported lib) (redact lib value) ↔ Tolerated lib (redactRuntimeValue lib.redaction value) :=
  raisesOnly_redacting _

theorem report_returns (opening message : Str) :
    (∃ r, report lib opening message = .ok r) ↔ Clean lib.redaction message := by
  rw [← returns_iff_clean, report, redact]
  cases redactRuntimeValue lib.redaction message with
  | error e => exact iff_of_false (fun ⟨r, hr⟩ => nomatch hr) fun ⟨r, hr⟩ => nomatch hr
  | ok shown => exact iff_of_true ⟨_, rfl⟩ ⟨shown, rfl⟩

/-- The handlers turn exactly what can be reported into a returned text. -/
theorem collectUploadMetadata_returns (s : Surroundings) :
    (∃ r, collectUploadMetadata lib s = .ok r) ↔ RaisesOnly (Reported lib) (collect lib s) := by
  rw [collectUploadMetadata]
  cases collect lib s with
  | ok a => exact iff_of_true ⟨_, rfl⟩ (raisesOnly_ok a)
  | error e =>
    rw [raisesOnly_error]
    cases e with
    | attributeError | typeError | memoryError | calledProcessError =>
      exact iff_of_false (fun ⟨r, hr⟩ => nomatch hr) id
    | _ m => exact report_returns _ m

end

/-- Running a program raised nothing that could not be shown. -/
def RunAccepted {α : Type} (x : Except Trouble α) : Prop :=
  ∀ t, x = .error t → Clean lib.redaction t.message

/-- What the uploader library raised can be shown. -/
def UploaderAccepted {α : Type} (x : Except UploaderError α) : Prop :=
  ∀ e, x = .error e → Clean lib.redaction e.message

def replyTo (s : Surroundings) (method : Str) (params : List Data) : Reply :=
  s.post ⟨str lib (orEmpty (option s "rpc-user".toList)),
    str lib (orEmpty (option s "rpc-password".toList)), method, params⟩

def failureText (method : Str) (body : Entries) : Str :=
  method ++ " failed: ".toList ++ str lib (entry "error".toList body)

/-- The call failed with a text that can be shown, or its body is an object; redaction of an
error in it is tolerated, and what comes of that can be shown. -/
def ReplyAccepted (method : Str) : Reply → Prop
  | .failed m => Clean lib.redaction m
  | .body (.dict body) => truthy (entry "error".toList body) →
      Tolerated lib (redactRuntimeValue lib.redaction (failureText lib method body)) ∧
        ∀ m, redactRuntimeValue lib.redaction (failureText lib method body) = .ok m →
          Clean lib.redaction m
  | .body _ => False

/-- The result that an object without an error carries. -/
def resultOf : Reply → Option Data
  | .body (.dict body) =>
    if truthy (entry "error".toList body) then none else some (entry "result".toList body)
  | _ => none

section
variable {lib}

theorem raisesOnly_ran {α : Type} (x : Except Trouble α) :
    RaisesOnly (Reported lib) (ran x) ↔ RunAccepted lib x := by
  rw [ran, raisesOnly_mapError]
  apply forall_congr'
  intro t
  cases t <;> exact Iff.rfl

theorem raisesOnly_uploading {α : Type} (x : Except UploaderError α) :
    RaisesOnly (Reported lib) (uploading x) ↔ UploaderAccepted lib x := by
  rw [uploading, raisesOnly_mapError]
  apply forall_congr'
  intro e
  cases e <;> exact Iff.rfl

theorem redacting_eq_ok {α : Type} {x : Except PythonError α} {a : α} :
    redacting x = .ok a ↔ x = .ok a := mapError_eq_ok

theorem rpcCall_eq_ok {s : Surroundings} {method : Str} {params : List Data} {v : Data} :
    rpcCall lib s method params = .ok v ↔ resultOf (replyTo lib s method params) = some v := by
  rw [rpcCall, ← replyTo]
  cases replyTo lib s method params with
  | failed m => exact iff_of_false nofun nofun
  | body body =>
    cases body with
    | dict body =>
      simp only [resultOf]
      by_cases herror : truthy (entry "error".toList body)
      · rw [if_pos herror, if_pos herror]
        cases redact lib (method ++ " failed: ".toList ++ str lib (entry "error".toList body)) with
        | error e => exact iff_of_false nofun nofun
        | ok m => exact iff_of_false nofun nofun
      · rw [if_neg herror, if_neg herror]
        exact ⟨fun h => congrArg some (Except.ok.inj h), fun h => congrArg _ (Option.some.inj h)⟩
    | _ => exact iff_of_false nofun nofun

theorem raisesOnly_rpcCall (s : Surroundings) (method : Str) (params : List Data) :
    RaisesOnly (Reported lib) (rpcCall lib s method params) ↔
      ReplyAccepted lib method (replyTo lib s method params) := by
  rw [rpcCall, ← replyTo]
  cases replyTo lib s method params with
  | failed m => exact raisesOnly_error _
  | body body =>
    cases body with
    | dict body =>
      simp only [ReplyAccepted]
      by_cases herror : truthy (entry "error".toList body)
      · rw [if_pos herror, raisesOnly_bind, raisesOnly_redact, ← failureText]
        simp only [herror, forall_const, raisesOnly_error, redact, redacting_eq_ok]
        exact Iff.rfl
      · rw [if_neg herror]
        exact iff_of_true (raisesOnly_ok _) fun h => absurd h herror
    | _ => exact raisesOnly_error _

end

/-- The environment file is read when no process shows a command line. -/
structure CmdlineAccepted (s : Surroundings) : Prop where
  pgrep : RunAccepted lib s.pgrep
  process : ∀ pids pid more, s.pgrep = .ok pids → words pids = pid :: more →
    RunAccepted lib (s.cat (procPath pid))
  file : getClientProcCmdline s = .ok [] → RunAccepted lib (s.cat serviceArgsPath)

/-- The binary is asked for its version when the node does not tell. -/
def VersionAccepted (s : Surroundings) (subversion : Str) : Prop :=
  search HostSystem.subversionPattern subversion = none →
    ∀ t, s.version = .trouble t → Clean lib.redaction t.message

/-- Limits are read in turn, up to one that is no number and whose error can be shown. -/
def LimitsRead : List Str → Prop
  | [] => True
  | value :: values => RaisesOnly (Reported lib) (finiteInt lib value) ∧
      ((∃ v, finiteInt lib value = .ok v) → LimitsRead values)

def limitValues (stdout : Str) : List Str :=
  ["MemoryMax", "MemoryHigh", "TasksMax"].map fun name => property stdout name.toList

/-- `systemctl show` cannot be run, or it ends with status 0. -/
def LimitsAccepted (s : Surroundings) : Prop :=
  RunAccepted lib s.systemctlShow ∧ ∀ status stdout, s.systemctlShow = .ok (status, stdout) →
    status = 0 ∧ LimitsRead lib (limitValues stdout)

section
variable {lib}

theorem ran_eq_ok {α : Type} {x : Except Trouble α} {a : α} : ran x = .ok a ↔ x = .ok a :=
  mapError_eq_ok

theorem raisesOnly_getServiceArgs (s : Surroundings) :
    RaisesOnly (Reported lib) (getServiceArgs s) ↔ RunAccepted lib (s.cat serviceArgsPath) := by
  rw [getServiceArgs, raisesOnly_map, raisesOnly_ran]

theorem raisesOnly_getClientProcCmdline (s : Surroundings) :
    RaisesOnly (Reported lib) (getClientProcCmdline s) ↔ RunAccepted lib s.pgrep ∧
      ∀ pids pid more, s.pgrep = .ok pids → words pids = pid :: more →
        RunAccepted lib (s.cat (procPath pid)) := by
  rw [getClientProcCmdline, raisesOnly_bind, raisesOnly_ran]
  apply and_congr_right
  intro _
  apply forall_congr'
  intro pids
  rw [ran_eq_ok]
  cases words pids with
  | nil => exact iff_of_true (fun _ => raisesOnly_ok _) nofun
  | cons pid more =>
    simp only [raisesOnly_map, raisesOnly_ran, List.cons.injEq]
    constructor
    · rintro h _ _ hpids ⟨rfl, rfl⟩
      exact h hpids
    · exact fun h hpids => h pid more hpids ⟨rfl, rfl⟩

theorem raisesOnly_effectiveCmdline (s : Surroundings) :
    RaisesOnly (Reported lib) (effectiveCmdline s) ↔ CmdlineAccepted lib s := by
  have hfile : (∀ process, getClientProcCmdline s = .ok process → RaisesOnly (Reported lib)
      (if process.isEmpty then getServiceArgs s else return process)) ↔
      (getClientProcCmdline s = .ok [] → RunAccepted lib (s.cat serviceArgsPath)) := by
    constructor
    · exact fun h hnil => (raisesOnly_getServiceArgs s).1 (h [] hnil)
    · intro h process hprocess
      cases process with
      | nil => exact (raisesOnly_getServiceArgs s).2 (h hprocess)
      | cons c rest => exact raisesOnly_pure _
  rw [effectiveCmdline, raisesOnly_bind, hfile, raisesOnly_getClientProcCmdline]
  constructor
  · exact fun h => ⟨h.1.1, h.1.2, h.2⟩
  · exact fun h => ⟨⟨h.pgrep, h.process⟩, h.file⟩

theorem raisesOnly_clientVersion (s : Surroundings) (subversion : Str) :
    RaisesOnly (Reported lib) (clientVersion s subversion) ↔ VersionAccepted lib s subversion := by
  rw [clientVersion, VersionAccepted]
  cases search HostSystem.subversionPattern subversion with
  | some m => exact iff_of_true (raisesOnly_ok _) nofun
  | none =>
    simp only [raisesOnly_map, forall_const]
    rw [getVersion]
    cases s.version with
    | unavailable => exact iff_of_true (raisesOnly_ok _) nofun
    | output stdout => exact iff_of_true (raisesOnly_ok _) nofun
    | trouble t =>
      simp only [raisesOnly_error, VersionOutput.trouble.injEq, forall_eq']
      cases t <;> exact Iff.rfl

/-- Reading three limits in turn. -/
theorem raisesOnly_limits {α : Type} (v₁ v₂ v₃ : Str) (f : Data → Data → Data → α) :
    RaisesOnly (Reported lib) (do
      let d₁ ← finiteInt lib v₁
      let d₂ ← finiteInt lib v₂
      let d₃ ← finiteInt lib v₃
      return f d₁ d₂ d₃) ↔ LimitsRead lib [v₁, v₂, v₃] := by
  simp only [raisesOnly_bind, raisesOnly_pure, LimitsRead, forall_exists_index, implies_true,
    and_true]

theorem raisesOnly_getSystemdLimits (s : Surroundings) :
    RaisesOnly (Reported lib) (getSystemdLimits lib s) ↔ LimitsAccepted lib s := by
  rw [getSystemdLimits, raisesOnly_bind, raisesOnly_ran, LimitsAccepted]
  apply and_congr_right
  intro _
  rw [Prod.forall]
  apply forall₂_congr
  intro status stdout
  rw [ran_eq_ok]
  apply imp_congr_right
  intro _
  by_cases hstatus : status = 0
  · simp only [hstatus, ne_eq, not_true_eq_false, ↓reduceIte, true_and, limitValues, List.map_cons,
      List.map_nil]
    exact raisesOnly_limits _ _ _ _
  · simp only [hstatus, ne_eq, not_false_eq_true, ↓reduceIte, false_and, iff_false]
    exact (raisesOnly_error _).1

end

/-- The calls of `build_runtime_metadata`, in order. -/
def metadataCalls : List (Str × List Data) :=
  [("getnetworkinfo".toList, []), ("getblockchaininfo".toList, []),
    ("getblockhash".toList, [.int 0]), ("getindexinfo".toList, [])]

/-- Replies are accepted in turn, up to the first without a result. -/
def RepliesAccepted (s : Surroundings) : List (Str × List Data) → Prop
  | [] => True
  | (method, params) :: calls => ReplyAccepted lib method (replyTo lib s method params) ∧
      ((∃ v, resultOf (replyTo lib s method params) = some v) → RepliesAccepted s calls)

/-- All calls give results, of the types that are checked. -/
structure Results (s : Surroundings) (network chain indexes : Entries) (genesisHash : Data) :
    Prop where
  network : resultOf (replyTo lib s "getnetworkinfo".toList []) = some (.dict network)
  chain : resultOf (replyTo lib s "getblockchaininfo".toList []) = some (.dict chain)
  genesisHash : resultOf (replyTo lib s "getblockhash".toList [.int 0]) = some genesisHash
  indexes : resultOf (replyTo lib s "getindexinfo".toList []) = some (.dict indexes)

/-- The results are described: what is run on the way is accepted, and redaction of the
command line and of the two records is tolerated. -/
def Describable (s : Surroundings) (network chain indexes : Entries) (genesisHash : Data) : Prop :=
  let subversion := str lib (orEmpty (entry "subversion".toList network))
  CmdlineAccepted lib s ∧ ∀ cmdline, effectiveCmdline s = .ok cmdline →
    VersionAccepted lib s subversion ∧ ∀ version, clientVersion s subversion = .ok version →
      Tolerated lib (redactRuntimeValue lib.redaction cmdline) ∧
        ∀ shown, redactRuntimeValue lib.redaction cmdline = .ok shown →
          LimitsAccepted lib s ∧ ∀ limits, getSystemdLimits lib s = .ok limits →
            Tolerated lib (redactOutput lib.redaction
              (blockchainRecord lib chain genesisHash version shown)) ∧
            ((∃ blockchain, redactOutput lib.redaction
                (blockchainRecord lib chain genesisHash version shown) = .ok blockchain) →
              Tolerated lib (redactOutput lib.redaction
                (sectionsRecord lib s network chain indexes cmdline limits)))

/-- Redaction of the model and, once more, of the two records is tolerated, and they go to an
uploader whose errors can be shown. -/
structure Uploadable (s : Surroundings) (credentials : Option Str) (blockchain sections : Data) :
    Prop where
  modelTolerated : Tolerated lib (redactedModelView lib s.model)
  blockchainTolerated : ∀ model, redactedModelView lib s.model = .ok model →
    Tolerated lib (redactOutput lib.redaction blockchain)
  sectionsTolerated : ∀ model blockchain', redactedModelView lib s.model = .ok model →
    redactOutput lib.redaction blockchain = .ok blockchain' →
      Tolerated lib (redactOutput lib.redaction sections)
  uploaded : ∀ model blockchain' sections', redactedModelView lib s.model = .ok model →
    redactOutput lib.redaction blockchain = .ok blockchain' →
    redactOutput lib.redaction sections = .ok sections' → UploaderAccepted lib
      (s.collectAndUpload ⟨model, blockchain', sections', credentials, credentials.isNone⟩)

/-- Bodies are objects as far as they are received, `systemctl show` does not fail, and
redaction raises nothing on the way that a handler misses or cannot show. -/
structure Collectable (s : Surroundings) : Prop where
  secret : truthy (secretId s) →
    UploaderAccepted lib (s.parseCredentials (str lib (secretId s)))
  replies : ∀ c, credentials lib s = .ok c → RepliesAccepted lib s metadataCalls
  description : ∀ c network chain indexes genesisHash, credentials lib s = .ok c →
    Results lib s network chain indexes genesisHash →
    Describable lib s network chain indexes genesisHash
  upload : ∀ c network chain indexes genesisHash blockchain sections,
    credentials lib s = .ok c → Results lib s network chain indexes genesisHash →
    describeRuntime lib s network chain indexes genesisHash = .ok (blockchain, sections) →
    Uploadable lib s c blockchain sections

section
variable {lib}

theorem raisesOnly_describeRuntime (s : Surroundings) (network chain indexes : Entries)
    (genesisHash : Data) :
    RaisesOnly (Reported lib) (describeRuntime lib s network chain indexes genesisHash) ↔
      Describable lib s network chain indexes genesisHash := by
  rw [describeRuntime, raisesOnly_bind, raisesOnly_effectiveCmdline, Describable]
  apply and_congr_right
  intro _
  apply forall₂_congr
  intro cmdline _
  rw [raisesOnly_bind, raisesOnly_clientVersion]
  apply and_congr_right
  intro _
  apply forall₂_congr
  intro version _
  rw [raisesOnly_bind, raisesOnly_redact]
  apply and_congr_right
  intro _
  apply forall_congr'
  intro shown
  rw [redact, redacting_eq_ok]
  apply imp_congr_right
  intro _
  rw [raisesOnly_bind, raisesOnly_getSystemdLimits]
  apply and_congr_right
  intro _
  apply forall₂_congr
  intro limits _
  rw [raisesOnly_bind, raisesOnly_redacting]
  apply and_congr_right
  intro _
  simp only [raisesOnly_map, raisesOnly_redacting, redacting_eq_ok, forall_exists_index]

theorem clean_invalidTypes :
    Clean lib.redaction "Bitcoin Core returned invalid metadata response types".toList := by
  rw [Redaction.clean_iff]
  have hnone : (Redaction.fragmentsOf
      "Bitcoin Core returned invalid metadata response types".toList).1 = [] := by decide +kernel
  rw [hnone]
  trivial

/-- Results of other types are reported. -/
theorem raisesOnly_typed (s : Surroundings) (network chain indexes genesisHash : Data) :
    RaisesOnly (Reported lib) (match network, chain, indexes with
      | .dict network, .dict chain, .dict indexes =>
        describeRuntime lib s network chain indexes genesisHash
      | _, _, _ => .error (.runtimeError
        "Bitcoin Core returned invalid metadata response types".toList)) ↔
      ∀ network' chain' indexes', network = .dict network' → chain = .dict chain' →
        indexes = .dict indexes' → Describable lib s network' chain' indexes' genesisHash := by
  split
  · rename_i network' chain' indexes'
    rw [raisesOnly_describeRuntime]
    constructor
    · rintro h _ _ _ ⟨⟩ ⟨⟩ ⟨⟩
      exact h
    · exact fun h => h network' chain' indexes' rfl rfl rfl
  · rename_i hother
    rw [raisesOnly_error]
    refine iff_of_true clean_invalidTypes ?_
    rintro network' chain' indexes' rfl rfl rfl
    exact (hother network' chain' indexes' rfl rfl rfl).elim

theorem raisesOnly_buildRuntimeMetadata (s : Surroundings) :
    RaisesOnly (Reported lib) (buildRuntimeMetadata lib s) ↔
      RepliesAccepted lib s metadataCalls ∧ ∀ network chain indexes genesisHash,
        Results lib s network chain indexes genesisHash →
        Describable lib s network chain indexes genesisHash := by
  rw [buildRuntimeMetadata]
  simp only [raisesOnly_bind, raisesOnly_rpcCall, rpcCall_eq_ok]
  constructor
  · rintro ⟨h₁, h₂⟩
    constructor
    · refine ⟨h₁, fun ⟨network, hn⟩ => ?_⟩
      obtain ⟨h₂, h₃⟩ := h₂ network hn
      refine ⟨h₂, fun ⟨chain, hc⟩ => ?_⟩
      obtain ⟨h₃, h₄⟩ := h₃ chain hc
      exact ⟨h₃, fun ⟨genesisHash, hg⟩ => ⟨(h₄ genesisHash hg).1, fun _ => trivial⟩⟩
    · rintro network chain indexes genesisHash ⟨hn, hc, hg, hi⟩
      have h := (((h₂ _ hn).2 _ hc).2 _ hg).2 _ hi
      exact (raisesOnly_typed _ _ _ _ _).1 h network chain indexes rfl rfl rfl
  · rintro ⟨⟨h₁, h₂⟩, hdescribe⟩
    refine ⟨h₁, fun network hn => ?_⟩
    obtain ⟨h₂, h₃⟩ := h₂ ⟨network, hn⟩
    refine ⟨h₂, fun chain hc => ?_⟩
    obtain ⟨h₃, h₄⟩ := h₃ ⟨chain, hc⟩
    refine ⟨h₃, fun genesisHash hg => ?_⟩
    obtain ⟨h₄, -⟩ := h₄ ⟨genesisHash, hg⟩
    refine ⟨h₄, fun indexes hi => ?_⟩
    apply (raisesOnly_typed _ _ _ _ _).2
    rintro network' chain' indexes' rfl rfl rfl
    exact hdescribe _ _ _ _ ⟨hn, hc, hg, hi⟩

theorem raisesOnly_credentials (s : Surroundings) :
    RaisesOnly (Reported lib) (credentials lib s) ↔ (truthy (secretId s) →
      UploaderAccepted lib (s.parseCredentials (str lib (secretId s)))) := by
  rw [credentials]
  by_cases hsecret : truthy (secretId s)
  · rw [if_pos hsecret, raisesOnly_map, raisesOnly_uploading, forall_prop_of_true hsecret]
  · rw [if_neg hsecret]
    exact iff_of_true (raisesOnly_pure _) fun h => absurd h hsecret

theorem raisesOnly_upload (s : Surroundings) (c : Option Str) (blockchain sections : Data) :
    RaisesOnly (Reported lib) (do
      let model ← redacting (redactedModelView lib s.model)
      let blockchain ← redacting (redactOutput lib.redaction blockchain)
      let sections ← redacting (redactOutput lib.redaction sections)
      uploading (s.collectAndUpload ⟨model, blockchain, sections, c, c.isNone⟩)) ↔
      Uploadable lib s c blockchain sections := by
  simp only [raisesOnly_bind, raisesOnly_redacting, raisesOnly_uploading, redacting_eq_ok]
  constructor
  · rintro ⟨hmodel, h⟩
    exact ⟨hmodel, fun m hm => (h m hm).1, fun m b hm hb => ((h m hm).2 b hb).1,
      fun m b c' hm hb hc => ((h m hm).2 b hb).2 c' hc⟩
  · rintro ⟨hmodel, hblockchain, hsections, hupload⟩
    exact ⟨hmodel, fun m hm => ⟨hblockchain m hm, fun b hb => ⟨hsections m b hm hb, fun c' hc =>
      hupload m b c' hm hb hc⟩⟩⟩

theorem buildRuntimeMetadata_eq_ok {s : Surroundings} {records : Data × Data} :
    buildRuntimeMetadata lib s = .ok records ↔
      ∃ network chain indexes genesisHash, Results lib s network chain indexes genesisHash ∧
        describeRuntime lib s network chain indexes genesisHash = .ok records := by
  rw [buildRuntimeMetadata]
  simp only [bind_eq_ok, rpcCall_eq_ok]
  constructor
  · rintro ⟨network, hn, chain, hc, genesisHash, hg, indexes, hi, h⟩
    split at h
    · rename_i network' chain' indexes'
      exact ⟨network', chain', indexes', genesisHash, ⟨hn, hc, hg, hi⟩, h⟩
    · cases h
  · rintro ⟨network, chain, indexes, genesisHash, ⟨hn, hc, hg, hi⟩, h⟩
    exact ⟨_, hn, _, hc, _, hg, _, hi, h⟩

theorem raisesOnly_collect (s : Surroundings) :
    RaisesOnly (Reported lib) (collect lib s) ↔ Collectable lib s := by
  rw [collect, raisesOnly_bind, raisesOnly_credentials]
  simp only [raisesOnly_bind (x := buildRuntimeMetadata lib s), raisesOnly_buildRuntimeMetadata,
    buildRuntimeMetadata_eq_ok]
  constructor
  · rintro ⟨hsecret, h⟩
    refine ⟨hsecret, fun c hc => (h c hc).1.1, ?_, ?_⟩
    · exact fun c network chain indexes genesisHash hc hr => (h c hc).1.2 _ _ _ _ hr
    · intro c network chain indexes genesisHash blockchain sections hc hr hd
      exact (raisesOnly_upload s c _ _).1 ((h c hc).2 _ ⟨_, _, _, _, hr, hd⟩)
  · rintro ⟨hsecret, hreplies, hdescribe, hupload⟩
    refine ⟨hsecret, fun c hc => ⟨⟨hreplies c hc, ?_⟩, ?_⟩⟩
    · exact fun network chain indexes genesisHash hr => hdescribe c _ _ _ _ hc hr
    · rintro ⟨blockchain, sections⟩ ⟨network, chain, indexes, genesisHash, hr, hd⟩
      exact (raisesOnly_upload s c _ _).2 (hupload c _ _ _ _ _ _ hc hr hd)

end

section
open FallibleProcedures HostSystem HostSteps CharmHooks
variable {lib}

/-- The collection ends as it does in `s`, and nothing else raises. -/
structure HandsOver (lib : Library) (s : Surroundings) (env : Environment) : Prop where
  returned : ∀ hist r, collectUploadMetadata lib s = .ok r →
    (env hist .collectMetadata).raises = none ∧ (env hist .collectMetadata).metadataError = r
  raised : ∀ hist e, collectUploadMetadata lib s = .error e →
    (env hist .collectMetadata).raises.isSome
  others : ∀ hist op, op ≠ .collectMetadata → (env hist op).raises = none

variable {env : Environment}

/-- A procedure that raises nothing. -/
def Completes {α : Type} (env : Environment) (m : Proc α) : Prop :=
  ∀ w, wp env m (fun _ _ => True) (fun _ _ => False) w

theorem completes_serviceRunning (h : ∀ hist op, op ≠ .collectMetadata → (env hist op).raises = none)
    (service : ServiceConfiguration.Service) (n : ℕ) : Completes env (serviceRunning service n) := by
  induction n with
  | zero => exact fun w => trivial
  | succ n ih =>
    intro w
    rw [serviceRunning, wp_bind]
    refine wp_getStatus (fun m hm => ?_) ?_
    · rw [h _ _ (by simp)] at hm
      cases hm
    · rw [wp_ite]
      split
      · trivial
      · exact ih _

theorem completes_pollVersion (h : ∀ hist op, op ≠ .collectMetadata → (env hist op).raises = none)
    (user password : Str) (n : ℕ) : Completes env (pollVersion user password n) := by
  induction n with
  | zero => exact fun w => trivial
  | succ n ih =>
    intro w
    rw [pollVersion, wp_bind]
    refine wp_observe (fun m hm => ?_) fun _ => ?_
    · rw [h _ _ (by simp)] at hm
      cases hm
    · split
      · exact ih _
      · split
        · trivial
        · exact ih _

/-- `_update_status` ends by setting a status. -/
theorem updateStatus_sets {s : Surroundings} (henv : HandsOver lib s env)
    (hreturns : ∃ r, collectUploadMetadata lib s = .ok r) (config : ServiceConfiguration.Config)
    (w : World) :
    wp env (updateStatus config) (fun _ w' => w'.history.head? = some .setStatus)
      (fun _ _ => False) w := by
  have quiet : ∀ hist op m, op ≠ .collectMetadata → (env hist op).raises ≠ some m := by
    intro hist op m hop hm
    rw [henv.others hist op hop] at hm
    cases hm
  have sets : ∀ status w', wp env (setStatus status)
      (fun _ w' => w'.history.head? = some .setStatus) (fun _ _ => False) w' := by
    intro status w'
    rw [setStatus, wp_bind]
    exact wp_observe (fun m hm => quiet _ _ m (by simp) hm) fun _ => rfl
  have ready : ∀ message w', wp env (readyStatus config message)
      (fun _ w' => w'.history.head? = some .setStatus) (fun _ _ => False) w' := by
    intro message w'
    rw [readyStatus, wp_bind]
    refine wp_mono (completes_pollVersion henv.others _ _ _ w') (fun version w₁ _ => ?_)
      fun _ _ h => h
    cases version with
    | none => exact sets _ _
    | some v =>
      simp only [wp_bind]
      obtain ⟨r, hr⟩ := hreturns
      refine wp_observe (fun m hm => ?_) fun _ => ?_
      · rw [(henv.returned _ r hr).1] at hm
        cases hm
      · split <;> exact sets _ _
  have services : ∀ w', wp env (serviceStatus config)
      (fun _ w' => w'.history.head? = some .setStatus) (fun _ _ => False) w' := by
    intro w'
    simp only [serviceStatus, wp_bind]
    refine wp_mono (completes_serviceRunning henv.others .node 4 w') (fun _ w₁ _ => ?_) fun _ _ h => h
    refine wp_mono (completes_serviceRunning henv.others .monitor 4 w₁) (fun _ w₂ _ => ?_)
      fun _ _ h => h
    refine wp_mono (completes_serviceRunning henv.others .rpcProxy 4 w₂) (fun _ w₃ _ => ?_)
      fun _ _ h => h
    rw [wp_ite]
    split
    · exact ready _ _
    · exact sets _ _
  rw [updateStatus, wp_bind]
  refine wp_observe (fun m hm => quiet _ _ m (by simp) hm) fun _ => ?_
  simp only [wp_bind, wp_fileExists]
  split
  · exact sets _ _
  · simp only [wp_bind, wp_fileExists]
    split
    · exact sets _ _
    · exact services _

/-- The collection returns, and the hook ends by setting a status. -/
structure NeverAborts (lib : Library) (s : Surroundings) : Prop where
  returns : ∃ r, collectUploadMetadata lib s = .ok r
  sets : ∀ env config w, HandsOver lib s env → ∃ status w',
    updateStatus config env w = .ok status w' ∧ w'.history.head? = some .setStatus

end

def bareLibrary : Library where
  redaction := Redaction.readsNothing
  beyond c := [c]
  urls := ⟨fun _ => [], fun _ => none, fun _ => ⟨false, [], []⟩, fun _ => [], fun _ => none,
    fun _ => false, fun _ => []⟩

theorem noOptions_fits : ∀ e ∈ ([] : List (Str × Data)), intsFit e.2 := nofun

def bareModel : Model := ⟨"model".toList, [], [], [], noOptions_fits⟩

/-- A node that gives every call the same body. -/
def answering (body : Data) (hbody : intsFit body) (status : ℤ) : Surroundings where
  model := bareModel
  post _ := .body body
  fits _ := hbody
  pgrep := .ok "7".toList
  cat _ := .ok "bitcoind".toList
  version := .unavailable
  systemctlShow := .ok (status, "MemoryMax=infinity\nTasksMax=100".toList)
  parseCredentials _ := .error (.validation [])
  collectAndUpload _ := .ok ()

/-- `{"result": {}}`, which serves as the result of any call. -/
def emptyResult : Data := record [("result".toList, .dict [])]

theorem emptyResult_fits : intsFit emptyResult := rfl

theorem noItems_fit : intsFit (.list []) := rfl

example : (collectUploadMetadata bareLibrary (answering emptyResult emptyResult_fits 0)).isOk = true := by
  decide +kernel

example : (collectUploadMetadata bareLibrary (answering emptyResult emptyResult_fits 1)).isOk = false := by
  decide +kernel

end BitcoinRpcOperator.MetadataFailures
