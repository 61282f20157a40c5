import BitcoinRpcOperator.Dictionaries
import BitcoinRpcOperator.StructuredRedaction

/-!
# Scrape requests

`interface_prometheus.py`: a provider writes a scrape request for itself into the databag of
the unit whenever a remote unit joins. Each join is handled in a process of its own, which
draws a request id; the databags stay.
-/

namespace BitcoinRpcOperator.PrometheusRequests
open Text PythonValues Dictionaries
open Redaction (JsonLike EntriesLike dumps_like keyName)

abbrev Databag := Dictionary Str Str

def targetsKey : Str := "static_configs".toList

/-- `json.dumps` returns on it. -/
def Serializable (v : Data) : Prop := JsonLike v ∧ intsFit v

/-- The arguments of `PrometheusProvider`. No caller sets targets of its own in what it adds to
the job, and all of it can be serialized. -/
structure Provider where
  relationName : Str
  port : ℤ
  path : Str
  jobData : List (Str × Data)
  noTargets : targetsKey ∉ jobData.map (·.1)
  json : ∀ e ∈ jobData, Serializable e.2

structure Job where
  jobName : Str
  jobData : Dictionary Str Data
  requestId : Str
  port : Str

def defaultData (path : Str) : List (Str × Data) :=
  [("honor_timestamps".toList, .bool true), ("scrape_interval".toList, .str "15s".toList),
    ("scrape_timeout".toList, .str "15s".toList), ("metrics_path".toList, .str path),
    ("scheme".toList, .str "http".toList), ("follow_redirects".toList, .bool true),
    ("enable_http2".toList, .bool true)]

/-- Set the entries of a dictionary one after the other. -/
def setAll (d : Dictionary Str Data) (es : List (Str × Data)) : Dictionary Str Data :=
  es.foldl (fun d e => d.update e.1 fun _ => e.2) d

/-- `__init__` in a process that draws the request id `uuid`. -/
def Provider.init (p : Provider) (uuid : Str) : Job where
  jobName := p.relationName
  jobData := setAll .empty (defaultData p.path ++ p.jobData)
  requestId := uuid
  port := intText p.port

def named (es : List (Str × Data)) : Data := .dict (es.map fun e => (.str e.1, e.2))

def Job.entries (job : Job) : List (Str × Data) :=
  [("job_name".toList, .str job.jobName), ("job_data".toList, named job.jobData.entries),
    ("request_id".toList, .str job.requestId), ("port".toList, .str job.port)]

def Job.data (job : Job) : Data := named job.entries

/-- `json.dumps(value, sort_keys=True)`. -/
def sortedStyle : Style := ⟨", ".toList, ": ".toList, true⟩

def targets (address port : Str) : Data :=
  .list [named [("targets".toList, .list [.str (address ++ ':' :: port)])]]

def requestKey (id : Str) : Str := "request_".toList ++ id

def addressKey : Str := "ingress-address".toList

/-- What the handler can raise. -/
inductive Failure where
  | keyError
  | dumps (e : PythonError)
  deriving DecidableEq, Repr

/-- `_on_relation_joined` on the databag of the unit. -/
def onRelationJoined (job : Job) (bag : Databag) : Except Failure (Job × Databag) := do
  match bag.get addressKey with
  | none => .error .keyError
  | some address =>
    let job := if targetsKey ∈ job.jobData.keys then job
      else { job with jobData := job.jobData.update targetsKey fun _ => targets address job.port }
    let text ← (dumps sortedStyle job.data).mapError Failure.dumps
    return (job, bag.update (requestKey job.requestId) fun _ => text)

/-- A remote unit joins a relation, and the process that handles it draws an id. -/
structure Join where
  relation : ℕ
  uuid : Str
  deriving DecidableEq, Repr

/-- The databags after a join; what a failing hook has written is not kept. -/
def joined (p : Provider) (bags : ℕ → Databag) (e : Join) : ℕ → Databag :=
  match onRelationJoined (p.init e.uuid) (bags e.relation) with
  | .ok (_, bag) => Function.update bags e.relation bag
  | .error _ => bags

def run (p : Provider) (bags : ℕ → Databag) (es : List Join) : ℕ → Databag := es.foldl (joined p) bags

def isRequestKey (key : Str) : Bool := "request_".toList.isPrefixOf key

def requestKeys (bag : Databag) : List Str := bag.keys.filter isRequestKey

/-- The text is a request with this id for one address. -/
def Names (p : Provider) (id address text : Str) : Prop :=
  ∃ job : Job, dumps sortedStyle job.data = .ok text ∧ job.requestId = id ∧
    job.jobData.get targetsKey = some (targets address (intText p.port))

/-- The databag holds one request, for the address that the unit has there. -/
def HasOneRequest (p : Provider) (bag : Databag) : Prop :=
  ∃ id address text, requestKeys bag = [requestKey id] ∧ bag.get (requestKey id) = some text ∧
    bag.get addressKey = some address ∧ Names p id address text

/-- Databags in which there are addresses and no requests yet. -/
structure Unrequested (bags : ℕ → Databag) : Prop where
  address : ∀ rel, ∃ address, (bags rel).get addressKey = some address
  requests : ∀ rel, requestKeys (bags rel) = []

/-- After each join, every relation that has been joined has one request. -/
def OneRequest (p : Provider) (bags : ℕ → Databag) (es : List Join) : Prop :=
  ∀ front back, es = front ++ back → ∀ e ∈ front, HasOneRequest p (run p bags front e.relation)

theorem mem_change {k : Str} {v : Data} {es : List (Str × Data)} {e : Str × Data}
    (h : e ∈ change k (fun _ => v) es) : e = (k, v) ∨ e ∈ es := by
  induction es with
  | nil => exact .inl (by simpa [change] using h)
  | cons a es ih =>
    rw [change] at h
    split at h
    · rcases List.mem_cons.1 h with h | h
      · exact .inl h
      · exact .inr (List.mem_cons_of_mem _ h)
    · rcases List.mem_cons.1 h with rfl | h
      · exact .inr (List.mem_cons_self ..)
      · rcases ih h with h | h
        · exact .inl h
        · exact .inr (List.mem_cons_of_mem _ h)

theorem get_setAll (d : Dictionary Str Data) (es : List (Str × Data)) {key : Str}
    (h : key ∉ es.map (·.1)) : (setAll d es).get key = d.get key := by
  induction es generalizing d with
  | nil => rfl
  | cons e es ih =>
    rw [List.map_cons, List.mem_cons, not_or] at h
    have hstep : (setAll d (e :: es)).get key = (d.update e.1 fun _ => e.2).get key := ih _ h.2
    rw [hstep, d.get_update_ne h.1]

theorem mem_setAll (d : Dictionary Str Data) (es : List (Str × Data)) {e : Str × Data}
    (h : e ∈ (setAll d es).entries) : e ∈ d.entries ∨ e ∈ es := by
  induction es generalizing d with
  | nil => exact .inl h
  | cons a es ih =>
    rcases ih (d.update a.1 fun _ => a.2) h with h | h
    · rcases mem_change h with rfl | h
      · exact .inr (List.mem_cons_self ..)
      · exact .inl h
    · exact .inr (List.mem_cons_of_mem _ h)

theorem serializable_named {es : List (Str × Data)} (hkeys : (es.map (·.1)).Nodup)
    (h : ∀ e ∈ es, Serializable e.2) : Serializable (named es) := by
  change EntriesLike (es.map fun e => (.str e.1, e.2)) ∧ entriesFit (es.map fun e => (.str e.1, e.2))
  induction es with
  | nil => exact ⟨trivial, rfl⟩
  | cons e es ih =>
    rw [List.map_cons, List.nodup_cons] at hkeys
    have hnames : (es.map fun e => ((.str e.1, e.2) : Data × Data)).map (fun e => keyName e.1) =
        es.map (·.1) := by rw [List.map_map]; rfl
    obtain ⟨hlike, hfit⟩ := h e (List.mem_cons_self ..)
    obtain ⟨hlikes, hfits⟩ := ih hkeys.2 fun e he => h e (List.mem_cons_of_mem _ he)
    constructor
    · refine ⟨hlike, ?_, hlikes⟩
      rw [hnames]
      exact hkeys.1
    · rw [List.map_cons, entriesFit, hfit, hfits]
      rfl

/-- A job whose data can be serialized can be serialized. -/
theorem dumps_job (job : Job) (h : ∀ e ∈ job.jobData.entries, Serializable e.2) :
    ∃ text, dumps sortedStyle job.data = .ok text := by
  have hkeys : (job.entries.map (·.1)).Nodup := by
    change ["job_name".toList, "job_data".toList, "request_id".toList, "port".toList].Nodup
    decide
  have hdata : Serializable job.data := by
    apply serializable_named hkeys
    intro e he
    simp only [Job.entries, List.mem_cons, List.not_mem_nil, or_false] at he
    rcases he with rfl | rfl | rfl | rfl
    · exact ⟨trivial, rfl⟩
    · exact serializable_named job.jobData.distinct h
    · exact ⟨trivial, rfl⟩
    · exact ⟨trivial, rfl⟩
  exact ⟨_, dumps_like _ hdata.1 hdata.2⟩

theorem requestKey_injective : Function.Injective requestKey := fun _ _ h =>
  List.append_cancel_left h

theorem isRequestKey_requestKey (id : Str) : isRequestKey (requestKey id) :=
  List.isPrefixOf_iff_prefix.2 (List.prefix_append ..)

theorem addressKey_ne (id : Str) : addressKey ≠ requestKey id := by
  have haddress : ¬ isRequestKey addressKey := by decide
  rintro h
  exact haddress (h ▸ isRequestKey_requestKey id)

section
variable (p : Provider) (uuid : Str)

theorem init_noTargets : targetsKey ∉ (p.init uuid).jobData.keys := by
  have hdefault : (defaultData p.path).map (·.1) = ["honor_timestamps".toList,
      "scrape_interval".toList, "scrape_timeout".toList, "metrics_path".toList, "scheme".toList,
      "follow_redirects".toList, "enable_http2".toList] := rfl
  have hkeys : targetsKey ∉ (defaultData p.path ++ p.jobData).map (·.1) := by
    rw [List.map_append, List.mem_append, not_or, hdefault]
    exact ⟨by decide, p.noTargets⟩
  rw [Dictionary.mem_keys_iff, Provider.init, get_setAll _ _ hkeys, Dictionary.get_empty]
  simp

theorem init_json : ∀ e ∈ (p.init uuid).jobData.entries, Serializable e.2 := by
  intro e he
  rcases mem_setAll _ _ he with he | he
  · simp [Dictionary.empty] at he
  · rcases List.mem_append.1 he with he | he
    · simp only [defaultData, List.mem_cons, List.not_mem_nil, or_false] at he
      rcases he with rfl | rfl | rfl | rfl | rfl | rfl | rfl <;> exact ⟨trivial, rfl⟩
    · exact p.json e he

/-- The handler writes one entry: a request with the id that its process has drawn. -/
theorem onRelationJoined_writes {bag : Databag} {address : Str}
    (haddress : bag.get addressKey = some address) :
    ∃ job text, onRelationJoined (p.init uuid) bag =
        .ok (job, bag.update (requestKey uuid) fun _ => text) ∧
      Names p uuid address text := by
  let job : Job := { p.init uuid with
    jobData := (p.init uuid).jobData.update targetsKey fun _ => targets address (intText p.port) }
  have hjson : ∀ e ∈ job.jobData.entries, Serializable e.2 := by
    intro e he
    rcases mem_change he with rfl | he
    · exact ⟨⟨⟨⟨trivial, trivial⟩, by simp, trivial⟩, trivial⟩, rfl⟩
    · exact init_json p uuid e he
  obtain ⟨text, htext⟩ := dumps_job job hjson
  refine ⟨job, text, ?_, job, htext, rfl, Dictionary.get_update_self _⟩
  rw [onRelationJoined, haddress]
  simp only [if_neg (init_noTargets p uuid)]
  change (do
    let text ← (dumps sortedStyle job.data).mapError Failure.dumps
    return (job, bag.update (requestKey uuid) fun _ => text)) = _
  rw [htext]
  rfl

end

def drawn (es : List Join) (relation : ℕ) : List Str :=
  (es.filter fun e => e.relation = relation).map (·.uuid)

theorem mem_drawn {es : List Join} {relation : ℕ} {id : Str} :
    id ∈ drawn es relation ↔ ∃ e ∈ es, e.relation = relation ∧ e.uuid = id := by
  simp [drawn, and_assoc]

/-- The requests of a databag are those with these ids. -/
structure Requested (p : Provider) (host : Str) (ids : List Str) (bag : Databag) : Prop where
  address : bag.get addressKey = some host
  keys : ∀ key ∈ requestKeys bag, ∃ id ∈ ids, key = requestKey id
  texts : ∀ id ∈ ids, ∃ text, bag.get (requestKey id) = some text ∧ Names p id host text

section
variable {p : Provider} {address : Str} {ids : List Str} {bag : Databag}

/-- A join adds the id that it draws. -/
theorem Requested.update (h : Requested p address ids bag) {id text : Str}
    (hnames : Names p id address text) :
    Requested p address (ids ++ [id]) (bag.update (requestKey id) fun _ => text) := by
  constructor
  case address => rw [bag.get_update_ne (addressKey_ne id), h.address]
  case keys =>
    intro key hkey
    obtain ⟨hmem, hrequest⟩ := List.mem_filter.1 hkey
    rcases bag.mem_keys_update.1 hmem with hmem | rfl
    · obtain ⟨old, hold, rfl⟩ := h.keys key (List.mem_filter.2 ⟨hmem, hrequest⟩)
      exact ⟨old, List.mem_append_left _ hold, rfl⟩
    · exact ⟨id, List.mem_append_right _ (List.mem_singleton_self id), rfl⟩
  case texts =>
    intro other hother
    by_cases heq : other = id
    · subst heq
      exact ⟨text, bag.get_update_self, hnames⟩
    · have hold : other ∈ ids := by simpa [heq] using hother
      obtain ⟨old, hget, hnames⟩ := h.texts other hold
      have hne : requestKey other ≠ requestKey id := fun hkey => heq (requestKey_injective hkey)
      exact ⟨old, by rw [bag.get_update_ne hne, hget], hnames⟩

theorem Requested.mem_requestKeys (h : Requested p address ids bag) {id : Str} (hid : id ∈ ids) :
    requestKey id ∈ requestKeys bag := by
  obtain ⟨text, hget, -⟩ := h.texts id hid
  have hkey : requestKey id ∈ bag.keys := by
    rw [bag.mem_keys_iff, hget]
    rfl
  exact List.mem_filter.2 ⟨hkey, isRequestKey_requestKey id⟩

/-- There is one request when there is one id. -/
theorem Requested.hasOneRequest_iff (h : Requested p address ids bag) :
    HasOneRequest p bag ↔ ids ≠ [] ∧ ∀ id ∈ ids, ∀ id' ∈ ids, id = id' := by
  constructor
  · rintro ⟨only, -, -, hkeys, -, -, -⟩
    have honly : ∀ id ∈ ids, id = only := by
      intro id hid
      have hmem := h.mem_requestKeys hid
      rw [hkeys, List.mem_singleton] at hmem
      exact requestKey_injective hmem
    refine ⟨?_, fun id hid id' hid' => (honly id hid).trans (honly id' hid').symm⟩
    rintro rfl
    obtain ⟨id, hid, -⟩ := h.keys (requestKey only) (by simp [hkeys])
    exact List.not_mem_nil hid
  · rintro ⟨hsome, hsame⟩
    obtain ⟨id, hid⟩ := List.exists_mem_of_ne_nil ids hsome
    obtain ⟨text, hget, hnames⟩ := h.texts id hid
    refine ⟨id, address, text, ?_, hget, h.address, hnames⟩
    have hnodup : (requestKeys bag).Nodup := bag.distinct.filter _
    have hall : ∀ key, key ∈ requestKeys bag ↔ key ∈ [requestKey id] := by
      intro key
      rw [List.mem_singleton]
      constructor
      · intro hkey
        obtain ⟨id', hid', rfl⟩ := h.keys key hkey
        rw [hsame id' hid' id hid]
      · rintro rfl
        exact h.mem_requestKeys hid
    exact List.perm_singleton.1 ((List.perm_ext_iff_of_nodup hnodup (List.nodup_singleton _)).2 hall)

end

section
variable {p : Provider} {bags : ℕ → Databag}

/-- One join adds its id to the requests of its relation. -/
theorem joined_requested {address : ℕ → Str} {ids : ℕ → List Str}
    (h : ∀ rel, Requested p (address rel) (ids rel) (bags rel)) (e : Join) (rel : ℕ) :
    Requested p (address rel) (ids rel ++ drawn [e] rel) (joined p bags e rel) := by
  obtain ⟨job, text, hwrites, hnames⟩ := onRelationJoined_writes p e.uuid (h e.relation).address
  have hjoined : joined p bags e = Function.update bags e.relation
      ((bags e.relation).update (requestKey e.uuid) fun _ => text) := by
    rw [joined, hwrites]
  rw [hjoined]
  by_cases hrel : e.relation = rel
  · subst hrel
    have hdrawn : drawn [e] e.relation = [e.uuid] := by simp [drawn]
    rw [Function.update_self, hdrawn]
    exact (h e.relation).update hnames
  · have hdrawn : drawn [e] rel = [] := by simp [drawn, hrel]
    rw [Function.update_of_ne (Ne.symm hrel), hdrawn, List.append_nil]
    exact h rel

/-- After a run, the requests of a relation are those that its joins have drawn. -/
theorem run_requested {address : ℕ → Str} (haddress : ∀ rel, (bags rel).get addressKey = some (address rel))
    (hnone : ∀ rel, requestKeys (bags rel) = []) (es : List Join) (rel : ℕ) :
    Requested p (address rel) (drawn es rel) (run p bags es rel) := by
  induction es using List.reverseRecOn generalizing rel with
  | nil =>
    constructor
    case address => exact haddress rel
    case keys =>
      intro key hkey
      rw [run, List.foldl_nil, hnone rel] at hkey
      exact absurd hkey List.not_mem_nil
    case texts => exact fun id hid => absurd hid List.not_mem_nil
  | append_singleton es e ih =>
    have hrun : run p bags (es ++ [e]) = joined p (run p bags es) e := by simp [run]
    have hdrawn : drawn (es ++ [e]) rel = drawn es rel ++ drawn [e] rel := by simp [drawn]
    rw [hrun, hdrawn]
    exact joined_requested ih e rel

/-- Every relation has one request throughout exactly if its joins all draw the same id. -/
theorem oneRequest_iff (hbags : Unrequested bags) (es : List Join) :
    OneRequest p bags es ↔ ∀ e ∈ es, ∀ e' ∈ es, e.relation = e'.relation → e.uuid = e'.uuid := by
  choose address haddress using hbags.address
  have hrequested := run_requested haddress hbags.requests (p := p)
  constructor
  · intro h e he e' he' hrel
    have hone := h es [] (List.append_nil es).symm e he
    obtain ⟨-, hsame⟩ := (hrequested es e.relation).hasOneRequest_iff.1 hone
    exact hsame _ (mem_drawn.2 ⟨e, he, rfl, rfl⟩) _ (mem_drawn.2 ⟨e', he', hrel.symm, rfl⟩)
  · rintro h front back rfl e he
    refine (hrequested front e.relation).hasOneRequest_iff.2 ⟨?_, ?_⟩
    · exact List.ne_nil_of_mem (mem_drawn.2 ⟨e, he, rfl, rfl⟩)
    · intro id hid id' hid'
      obtain ⟨a, ha, hrel, rfl⟩ := mem_drawn.1 hid
      obtain ⟨b, hb, hrel', rfl⟩ := mem_drawn.1 hid'
      exact h a (List.mem_append_left _ ha) b (List.mem_append_left _ hb) (hrel.trans hrel'.symm)

end

theorem nothingAdded_noTargets : targetsKey ∉ ([] : List (Str × Data)).map (·.1) := List.not_mem_nil

theorem nothingAdded_json : ∀ e ∈ ([] : List (Str × Data)), Serializable e.2 :=
  fun _ he => absurd he List.not_mem_nil

/-- A provider as the charm makes it, with nothing added to the job. -/
def charmProvider (relationName : Str) (port : ℤ) : Provider :=
  ⟨relationName, port, "/metrics".toList, [], nothingAdded_noTargets, nothingAdded_json⟩

def nodeProvider : Provider := charmProvider "node-prometheus".toList 9100

/-- The databag before the first join. -/
def unitBag : Databag := Dictionary.empty.update addressKey fun _ => "10.0.0.5".toList

def unitBags (_relation : ℕ) : Databag := unitBag

theorem unrequested_unitBags : Unrequested unitBags := by
  have hnone : requestKeys unitBag = [] := by decide
  exact ⟨fun _ => ⟨"10.0.0.5".toList, Dictionary.get_update_self _⟩, fun _ => hnone⟩

def firstJoin : Join := ⟨0, "14242306-4fd0-49aa-b979-7d94c7fd680c".toList⟩

def secondJoin : Join := ⟨0, "6f0ad5c3-5d0b-4b7e-9d52-0c5a3bd4f0a1".toList⟩

def otherJoin : Join := ⟨1, "c2b5f3c1-0f2e-4d6d-8a53-51c0c7f9b1de".toList⟩

/-- A relation is joined twice, in processes that draw the same id. -/
theorem joins_oneRequest : Unrequested unitBags ∧
    OneRequest nodeProvider unitBags [firstJoin, otherJoin, firstJoin] :=
  ⟨unrequested_unitBags, (oneRequest_iff unrequested_unitBags _).2 (by decide)⟩

/-- The second unit of a relation that joins leaves a second request. -/
theorem secondJoin_requestsTwice :
    Unrequested unitBags ∧ ¬ OneRequest nodeProvider unitBags [firstJoin, secondJoin] := by
  refine ⟨unrequested_unitBags, fun h => ?_⟩
  have hrequested := run_requested (p := nodeProvider) (fun _ => Dictionary.get_update_self _)
    unrequested_unitBags.requests [firstJoin, secondJoin] 0
  have hone := h [firstJoin, secondJoin] [] rfl firstJoin (List.mem_cons_self ..)
  obtain ⟨-, hsame⟩ := hrequested.hasOneRequest_iff.1 hone
  have hids : firstJoin.uuid = secondJoin.uuid :=
    hsame _ (mem_drawn.2 ⟨firstJoin, by simp, rfl, rfl⟩) _ (mem_drawn.2 ⟨secondJoin, by simp, rfl, rfl⟩)
  exact absurd hids (by decide)

end BitcoinRpcOperator.PrometheusRequests
