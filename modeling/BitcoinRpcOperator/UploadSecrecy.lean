import BitcoinRpcOperator.MetadataFailures

/-!
# What an upload does not depend on

Two runs of the metadata collection on surroundings that differ in secrets only: in what stands
beneath sensitive keys of the Juju options and databags, in the credentials the node is asked
with, and in what redaction takes out of the command line.
-/

namespace BitcoinRpcOperator.UploadSecrecy
open Text PythonValues EffectiveFlags MetadataCollection MetadataFailures
open Redaction (keyIsSensitive redactRuntimeValue redactAt redactOutput redactValue redactItems redactEntries
  redactValue_hidden strOf_eq_ok)

section
variable (lib : Redaction.Library)

mutual

/-- A value that stands beneath `key`, without what stands beneath sensitive keys. -/
def withheld (key : Str) : Data → Data
  | .dict es => if keyIsSensitive key then .none else .dict (withheldEntries es)
  | .list xs => if keyIsSensitive key then .none else .list (withheldItems xs)
  | .tuple xs => if keyIsSensitive key then .none else .tuple (withheldItems xs)
  | v => if keyIsSensitive key then .none else v

def withheldItems : List Data → List Data
  | [] => []
  | x :: xs => withheld [] x :: withheldItems xs

def withheldEntries : Entries → Entries
  | [] => []
  | (k, v) :: es => (k, withheld (text lib.printable k) v) :: withheldEntries es

end

end

section
variable {lib : Redaction.Library} {f : ℕ → Str → Except PythonError Str}

mutual

/-- Redaction does not see what is withheld. -/
theorem redactValue_withheld : ∀ (v : Data) (room : ℕ) (key : Str),
    redactValue lib f room key (withheld lib key v) = redactValue lib f room key v
  | .dict es, room, key => by
    rw [withheld]
    split_ifs with hkey
    · exact (redactValue_hidden hkey _ _).trans (redactValue_hidden hkey _ _).symm
    · rw [redactValue, redactValue]
      simp only [redactEntries_withheld es]
  | .list xs, room, key => by
    rw [withheld]
    split_ifs with hkey
    · exact (redactValue_hidden hkey _ _).trans (redactValue_hidden hkey _ _).symm
    · rw [redactValue, redactValue]
      simp only [redactItems_withheld xs]
  | .tuple xs, room, key => by
    rw [withheld]
    split_ifs with hkey
    · exact (redactValue_hidden hkey _ _).trans (redactValue_hidden hkey _ _).symm
    · rw [redactValue, redactValue]
      simp only [redactItems_withheld xs]
  | .none, room, key | .ellipsis, room, key | .bool _, room, key | .int _, room, key
  | .float _, room, key | .complex _, room, key | .str _, room, key | .bytes _, room, key
  | .set _, room, key => by
    rw [withheld]
    split_ifs with hkey
    · exact (redactValue_hidden hkey _ _).trans (redactValue_hidden hkey _ _).symm
    · rfl
    all_goals nofun

theorem redactItems_withheld : ∀ (xs : List Data) (room : ℕ),
    redactItems lib f room (withheldItems lib xs) = redactItems lib f room xs
  | [], _ => rfl
  | x :: xs, room => by
    rw [withheldItems, redactItems, redactItems, redactValue_withheld x room [], redactItems_withheld xs]

theorem redactEntries_withheld : ∀ (es : Entries) (room : ℕ),
    redactEntries lib f room (withheldEntries lib es) = redactEntries lib f room es
  | [], _ => rfl
  | (k, v) :: es, room => by
    rw [withheldEntries, redactEntries, redactEntries, redactEntries_withheld es]
    cases hname : strOf lib.printable k with
    | error e => rfl
    | ok name =>
      obtain ⟨-, rfl⟩ := strOf_eq_ok.1 hname
      change (redactValue lib f room _ _).bind _ = (redactValue lib f room _ _).bind _
      rw [redactValue_withheld v]

end

end

section
variable (lib : Library)

def uploadedOptions (model : Model) : List (Str × Data) :=
  model.config.filter fun e => e.1 ≠ "collector-s3-credentials".toList

def withheldOptions (model : Model) : Entries :=
  withheldEntries lib.redaction ((uploadedOptions model).map fun e => (.str e.1, e.2))

def withheldBag (databag : List (Str × Str)) : List (Str × Str) :=
  databag.map fun e => (e.1, if keyIsSensitive e.1 then [] else e.2)

def withheldRelation (r : Relation) : Relation :=
  ⟨r.id, r.data.map fun e => (e.1, withheldBag e.2)⟩

def withheldRelations (model : Model) : List (Str × List Relation) :=
  model.relations.map fun e => (e.1, e.2.map withheldRelation)

/-- What redaction and the search for options make of the command line. -/
def shownCmdline (s : Surroundings) : Except Exc (Except Exc Str × Flags) :=
  (effectiveCmdline s).map fun cmdline => (redact lib cmdline, parseEffectiveFlags lib.beyond cmdline)

/-- Two surroundings that differ in secrets only. -/
structure Alike (s t : Surroundings) : Prop where
  name : s.model.name = t.model.name
  uuid : s.model.uuid = t.model.uuid
  options : withheldOptions lib s.model = withheldOptions lib t.model
  relations : withheldRelations s.model = withheldRelations t.model
  /-- The node answers alike, whatever credentials it is asked with. -/
  answers : ∀ method params, replyTo lib s method params = replyTo lib t method params
  cmdline : shownCmdline lib s = shownCmdline lib t
  port : proxyPort lib s = proxyPort lib t
  version : s.version = t.version
  limits : s.systemctlShow = t.systemctlShow
  /-- The collector gets the same credentials, or neither gets any. -/
  credentials : credentials lib s = credentials lib t
  secretId : truthy (secretId s) = truthy (secretId t)
  uploader : s.collectAndUpload = t.collectAndUpload

end

section
variable {lib : Library} {s t : Surroundings}

theorem databag_withheld (databag : List (Str × Str)) :
    redactOutput lib.redaction (record ((withheldBag databag).map fun e => (e.1, .str e.2))) =
      redactOutput lib.redaction (record (databag.map fun e => (e.1, .str e.2))) := by
  have hentries : ∀ (bag : List (Str × Str)) (room : ℕ),
      redactEntries lib.redaction (redactAt lib.redaction) room
          (((withheldBag bag).map fun e => (e.1, Data.str e.2)).map fun f => (.str f.1, f.2)) =
        redactEntries lib.redaction (redactAt lib.redaction) room
          ((bag.map fun e => (e.1, Data.str e.2)).map fun f => (.str f.1, f.2)) := by
    intro bag room
    induction bag with
    | nil => rfl
    | cons e bag ih =>
      have hname : ∀ k : Str, strOf lib.redaction.printable (.str k) = .ok k := fun k => rfl
      rw [withheldBag] at ih
      simp only [withheldBag, List.map_cons, redactEntries, ih, hname]
      by_cases hkey : keyIsSensitive e.1
      · change (redactValue lib.redaction _ room e.1 _).bind _ = (redactValue lib.redaction _ room e.1 _).bind _
        rw [redactValue_hidden hkey, redactValue_hidden hkey]
      · rw [if_neg hkey]
  rw [record, record, redactOutput, redactOutput, redactValue, redactValue]
  simp only [hentries]

theorem redactedRelation_withheld (r : Relation) :
    redactedRelation lib (withheldRelation r) = redactedRelation lib r := by
  rw [redactedRelation, redactedRelation, withheldRelation, List.mapM_map]
  simp only [Function.comp_def, databag_withheld]

theorem redactedModelView_withheld (m : Model) :
    redactedModelView lib ⟨m.name, m.uuid, m.config, withheldRelations m, m.fits⟩ = redactedModelView lib m := by
  rw [redactedModelView, redactedModelView, withheldRelations, List.mapM_map]
  simp only [Function.comp_def, List.mapM_map, redactedRelation_withheld]

theorem options_alike {m m' : Model} (h : withheldOptions lib m = withheldOptions lib m') :
    redactEntries lib.redaction (redactAt lib.redaction) lib.redaction.room
        ((uploadedOptions m).map fun e => (.str e.1, e.2)) =
      redactEntries lib.redaction (redactAt lib.redaction) lib.redaction.room
        ((uploadedOptions m').map fun e => (.str e.1, e.2)) := by
  rw [← redactEntries_withheld ((uploadedOptions m).map _), ← redactEntries_withheld ((uploadedOptions m').map _)]
  exact congrArg _ h

/-- The view of a model is made from what is not withheld. -/
theorem redactedModelView_alike {m m' : Model} (hname : m.name = m'.name) (huuid : m.uuid = m'.uuid)
    (hoptions : withheldOptions lib m = withheldOptions lib m')
    (hrelations : withheldRelations m = withheldRelations m') :
    redactedModelView lib m = redactedModelView lib m' := by
  have options := options_alike hoptions
  unfold uploadedOptions at options
  rw [← redactedModelView_withheld m, ← redactedModelView_withheld m', redactedModelView, redactedModelView,
    hname, huuid, hrelations, options]

theorem rpcCall_alike (h : Alike lib s t) (method : Str) (params : List Data) :
    rpcCall lib s method params = rpcCall lib t method params := by
  have hreply := h.answers method params
  rw [replyTo, replyTo] at hreply
  rw [rpcCall, rpcCall, hreply]

theorem clientVersion_alike (h : Alike lib s t) (subversion : Str) :
    clientVersion s subversion = clientVersion t subversion := by
  have hversion : getVersion s = getVersion t := by rw [getVersion, getVersion, h.version]
  rw [clientVersion, clientVersion, hversion]

theorem getSystemdLimits_alike (h : Alike lib s t) : getSystemdLimits lib s = getSystemdLimits lib t := by
  rw [getSystemdLimits, getSystemdLimits, h.limits]

theorem sectionsRecord_alike (h : Alike lib s t) {line line' : Str}
    (hflags : parseEffectiveFlags lib.beyond line = parseEffectiveFlags lib.beyond line')
    (network chain indexes : Entries) (limits : Data) :
    sectionsRecord lib s network chain indexes line limits =
      sectionsRecord lib t network chain indexes line' limits := by
  rw [sectionsRecord, sectionsRecord, bitcoinSection, bitcoinSection, h.port, hflags]

/-- Two computations that agree in what `g` keeps go on alike where only that counts. -/
theorem bind_alike {ε α β γ : Type} {x y : Except ε α} {g : α → β} {f f' : α → Except ε γ}
    (h : x.map g = y.map g) (hf : ∀ a a', g a = g a' → f a = f' a') : (x >>= f) = (y >>= f') := by
  cases x with
  | error e =>
    cases y with
    | error e' => exact congrArg Except.error (Except.error.inj h)
    | ok a' => cases h
  | ok a =>
    cases y with
    | error e' => cases h
    | ok a' => exact hf a a' (Except.ok.inj h)

/-- The command line counts only as it is shown. -/
theorem describeRuntime_alike (h : Alike lib s t) (network chain indexes : Entries) (genesisHash : Data) :
    describeRuntime lib s network chain indexes genesisHash =
      describeRuntime lib t network chain indexes genesisHash := by
  rw [describeRuntime, describeRuntime]
  refine bind_alike h.cmdline fun line line' hline => ?_
  obtain ⟨hshown, hflags⟩ := Prod.mk.inj hline
  simp only [clientVersion_alike h, hshown, getSystemdLimits_alike h, sectionsRecord_alike h hflags]

theorem buildRuntimeMetadata_alike (h : Alike lib s t) :
    buildRuntimeMetadata lib s = buildRuntimeMetadata lib t := by
  rw [buildRuntimeMetadata, buildRuntimeMetadata]
  simp only [rpcCall_alike h, describeRuntime_alike h]

theorem collect_alike (h : Alike lib s t) : collect lib s = collect lib t := by
  rw [collect, collect, h.credentials, buildRuntimeMetadata_alike h, h.uploader,
    redactedModelView_alike h.name h.uuid h.options h.relations]

/-- Neither what is uploaded, nor whether anything is, nor the status that tells of it depends on
the secrets: whatever the uploader does with what it is handed, the collection ends the same. -/
theorem collectUploadMetadata_alike (h : Alike lib s t) :
    collectUploadMetadata lib s = collectUploadMetadata lib t := by
  rw [collectUploadMetadata, collectUploadMetadata, collect_alike h, h.secretId]

end

def passwordOptions (password : Str) : List (Str × Data) :=
  [("rpc-user".toList, .str "alice".toList), ("rpc-password".toList, .str password),
    ("rpc-proxy-listen".toList, .str "0.0.0.0:8332".toList)]

theorem passwordOptions_fit (password : Str) : ∀ e ∈ passwordOptions password, intsFit e.2 := by
  simp [passwordOptions, intsFit]

/-- A unit with a password of its own, for its node and for what is related to it. -/
def passwordModel (password : Str) : Model where
  name := "model".toList
  uuid := []
  config := passwordOptions password
  fits := passwordOptions_fit password
  relations := [("grafana".toList,
    [⟨1, [("unit".toList, [("url".toList, "node".toList), ("admin-password".toList, password)])]⟩])]

def passwordReply (password : Str) (r : RpcRequest) : Reply :=
  if r.password = password then .body emptyResult else .failed "401".toList

theorem passwordReply_fits (password : Str) (r : RpcRequest) : (passwordReply password r).Fits := by
  unfold passwordReply
  split
  · exact emptyResult_fits
  · trivial

/-- Its node, which shows the password on its command line. -/
def passwordSurroundings (password : Str) : Surroundings :=
  { answering emptyResult emptyResult_fits 0 with
    model := passwordModel password
    post := passwordReply password
    fits := passwordReply_fits password
    cat := fun _ => .ok ("bitcoind\x00-server=1\x00-rpcpassword=".toList ++ password ++ ['\x00']) }

theorem flags_of_entries {d d' : Flags} (h : d.entries = d'.entries) : d = d' := by
  obtain ⟨entries, hdistinct⟩ := d
  obtain ⟨entries', hdistinct'⟩ := d'
  obtain rfl : entries = entries' := h
  rfl

theorem shownCmdline_passwords : shownCmdline bareLibrary (passwordSurroundings "abc".toList) =
    shownCmdline bareLibrary (passwordSurroundings "xyz".toList) := by
  have habc : effectiveCmdline (passwordSurroundings "abc".toList) =
      .ok "bitcoind -server=1 -rpcpassword=abc ".toList := by decide +kernel
  have hxyz : effectiveCmdline (passwordSurroundings "xyz".toList) =
      .ok "bitcoind -server=1 -rpcpassword=xyz ".toList := by decide +kernel
  have hredact : redactRuntimeValue bareLibrary.redaction "bitcoind -server=1 -rpcpassword=abc ".toList =
      redactRuntimeValue bareLibrary.redaction "bitcoind -server=1 -rpcpassword=xyz ".toList := by
    decide +kernel
  have hentries : (parseEffectiveFlags bareLibrary.beyond "bitcoind -server=1 -rpcpassword=abc ".toList).entries =
      (parseEffectiveFlags bareLibrary.beyond "bitcoind -server=1 -rpcpassword=xyz ".toList).entries := by
    decide +kernel
  have hflags := flags_of_entries hentries
  rw [shownCmdline, shownCmdline, habc, hxyz, Except.map, Except.map, redact, redact, hredact, hflags]

theorem collectUploadMetadata_passwords :
    collectUploadMetadata bareLibrary (passwordSurroundings "abc".toList) =
      collectUploadMetadata bareLibrary (passwordSurroundings "xyz".toList) := by
  refine collectUploadMetadata_alike
    { name := rfl, uuid := rfl, options := ?_, relations := ?_, answers := ?_,
      cmdline := shownCmdline_passwords, port := ?_,
      version := rfl, limits := rfl, credentials := rfl, secretId := rfl, uploader := rfl }
  · rfl
  · rfl
  · intro method params
    rfl
  · rfl

end BitcoinRpcOperator.UploadSecrecy
