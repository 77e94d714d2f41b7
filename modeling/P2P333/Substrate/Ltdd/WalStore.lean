import P2P333.Substrate.Ltdd.Event
import P2P333.Substrate.Wal.Durability

/-!
# The durable store

`WalStore` of `substrate/crates/ltdd/src/wal_store.rs`: every event is the payload of one record of
the log, and the index is rebuilt from the payloads when the store is opened. The text of a JSON
value is a parameter; what is assumed of it is `Lossless`.

A ship that fails is held: later ships are ignored, and every later sync fails.

Results:
1. `store_returns_shipped_iff`: a synced store returns what was shipped if and only if the metadata
   of its log fits into a record and no event has an attribute under a reserved key.
-/

namespace P2P333.Substrate

open Lib

/-! ## Definitions -/

/-- `to_string` and `from_slice` of JSON values. -/
class JsonText where
  toText : Value → Bytes
  fromSlice : Bytes → Except String Value

/-- The text of the value reads as the value. -/
def Lossless [JsonText] (v : Value) : Prop := JsonText.fromSlice (JsonText.toText v) = .ok v

/-- Why a call of the store fails. -/
inductive WalStoreError where
  | wal (e : WalError)
  | envelope (seq : Nat) (detail : String)

/-- `index` are the replayed events and those shipped since; `pending` the first failed ship. -/
structure WalStore where
  wal : Wal
  index : List Event
  pending : Option WalError

/-- A value with the receipt that covers it. -/
structure Externalized (τ : Type) where
  value : τ
  receipt : Nat

/-- The payload of an event. -/
def Event.text [JsonText] (e : Event) : Bytes := JsonText.toText e.toTraceJson

section Store

variable [Crc32c] [JsonText]

/-- The loop of `open` over the replayed entries. -/
def replayIndex : List Entry → Except WalStoreError (List Event)
  | [] => .ok []
  | e :: rest =>
    match JsonText.fromSlice e.payload with
    | .error detail => .error (.envelope e.seq detail)
    | .ok value =>
      match Event.fromTraceJson value with
      | none => .error (.envelope e.seq "missing cid/event keys")
      | some event =>
        match replayIndex rest with
        | .error err => .error err
        | .ok index => .ok (event :: index)

namespace WalStore

def create (metadata : Bytes) (segmentSize : Nat) : WalStore × Dir :=
  (⟨(Wal.create metadata segmentSize).1, [], none⟩, (Wal.create metadata segmentSize).2)

def openDir (dir : Dir) (metadata : Bytes) (segmentSize : Nat) :
    Except WalStoreError (WalStore × Dir) :=
  match Wal.openDir dir metadata segmentSize with
  | .error e => .error (.wal e)
  | .ok (entries, wal, dir) =>
    match replayIndex entries with
    | .error e => .error e
    | .ok index => .ok (⟨wal, index, none⟩, dir)

/-- The receipt, if no ship has failed. -/
def sync (s : WalStore) (dir : Dir) : Except WalStoreError (Nat × WalStore × Dir) :=
  match s.pending with
  | some e => .error (.wal e)
  | none =>
    let r := s.wal.sync dir
    .ok (r.1, { s with wal := r.2.1 }, r.2.2)

def externalize {τ : Type} (s : WalStore) (dir : Dir) (value : τ) :
    Except WalStoreError (Externalized τ × WalStore × Dir) :=
  match s.sync dir with
  | .error e => .error e
  | .ok (receipt, r) => .ok (⟨value, receipt⟩, r)

/-- One turn of the loop of `ship`. -/
def shipOne (s : WalStore) (dir : Dir) (e : Event) : WalStore × Dir :=
  match s.wal.append dir e.text with
  | .ok (_, wal, dir) => ({ s with wal, index := s.index ++ [e] }, dir)
  | .error err => ({ s with pending := some err }, dir)

/-- A failing store stays as it is, also in the middle of a batch. -/
def ship (s : WalStore) (dir : Dir) : List Event → WalStore × Dir
  | [] => (s, dir)
  | e :: rest =>
    if s.pending.isSome then (s, dir)
    else
      let r := s.shipOne dir e
      r.1.ship r.2 rest

def query (s : WalStore) (cid : String) : List Event := s.index.filter fun e => e.cid == cid

end WalStore

/-- The calls of the store. -/
inductive StoreOp where
  | ship (events : List Event)
  | sync

namespace StoreOp

def events : StoreOp → List Event
  | .ship events => events
  | .sync => []

/-- A sync that fails leaves the store as it is. -/
def run (s : WalStore × Dir) : StoreOp → WalStore × Dir
  | .ship events => s.1.ship s.2 events
  | .sync =>
    match s.1.sync s.2 with
    | .error _ => s
    | .ok (_, r) => r

end StoreOp

/-- Everything that was shipped. -/
def shipped (ops : List StoreOp) : List Event := ops.flatMap StoreOp.events

/-! ## The log of a store -/

variable {metadata : Bytes} {segmentSize : Nat} {l : Layout} {s : WalStore} {dir : Dir}

/-- The log holds the texts of the index, in order. -/
structure StoreAt (metadata : Bytes) (segmentSize : Nat) (l : Layout) (s : WalStore) (dir : Dir) :
    Prop where
  valid : l.Valid
  first : l.head.first = 1
  dir_eq : dir = l.dir metadata
  wal_eq : s.wal = l.handle metadata segmentSize
  payloads : l.payloads = s.index.map Event.text

theorem storeAt_create (metadata : Bytes) (segmentSize : Nat) :
    StoreAt metadata segmentSize ⟨⟨0, 0, 0, 1⟩, [], [], 0⟩
      (WalStore.create metadata segmentSize).1 (WalStore.create metadata segmentSize).2 where
  valid := (@inv_start _ metadata True True).valid
  first := rfl
  dir_eq := dir_create metadata segmentSize
  wal_eq := wal_create metadata segmentSize
  payloads := rfl

section

variable (h : StoreAt metadata segmentSize l s dir)
include h

/-- One event is appended, or its failure is held. -/
theorem StoreAt.shipOne (e : Event) :
    (∃ l', StoreAt metadata segmentSize l' (s.shipOne dir e).1 (s.shipOne dir e).2) ∧
      ((s.shipOne dir e).1.pending = none →
        s.pending = none ∧ (s.shipOne dir e).1.index = s.index ++ [e]) := by
  unfold WalStore.shipOne
  split
  · next seq wal dir' happ =>
    rw [h.wal_eq, h.dir_eq] at happ
    obtain ⟨-, rfl, rfl, hv⟩ := Layout.append_layout h.valid happ
    refine ⟨⟨l.append metadata segmentSize e.text, ?_⟩, fun hp => ⟨hp, rfl⟩⟩
    exact
      { valid := hv
        first := by rw [Layout.head_append]; exact h.first
        dir_eq := rfl
        wal_eq := rfl
        payloads := by rw [Layout.payloads_append, h.payloads, List.map_append]; rfl }
  · exact ⟨⟨l, { h with }⟩, fun hp => by cases hp⟩

theorem StoreAt.ship (events : List Event) :
    (∃ l', StoreAt metadata segmentSize l' (s.ship dir events).1 (s.ship dir events).2) ∧
      ((s.ship dir events).1.pending = none →
        s.pending = none ∧ (s.ship dir events).1.index = s.index ++ events) := by
  induction events generalizing l s dir with
  | nil => exact ⟨⟨l, h⟩, fun hp => ⟨hp, (List.append_nil _).symm⟩⟩
  | cons e rest ih =>
    rw [WalStore.ship]
    split
    · next hfailed =>
      refine ⟨⟨l, h⟩, fun hp => ?_⟩
      rw [hp] at hfailed
      cases hfailed
    · obtain ⟨⟨l', h'⟩, hone⟩ := h.shipOne e
      obtain ⟨hrest, hindex⟩ := ih h'
      refine ⟨hrest, fun hp => ?_⟩
      obtain ⟨hp', hindex⟩ := hindex hp
      obtain ⟨hp, hone⟩ := hone hp'
      refine ⟨hp, ?_⟩
      rw [hindex, hone, List.append_assoc]
      rfl

theorem StoreAt.sync {receipt : Nat} {s' : WalStore}
    {dir' : Dir} (hsync : s.sync dir = .ok (receipt, s', dir')) :
    StoreAt metadata segmentSize l.sync s' dir' ∧ s.pending = none ∧ s'.pending = none ∧
      s'.index = s.index := by
  unfold WalStore.sync at hsync
  split at hsync
  · cases hsync
  next hp =>
  rw [h.wal_eq, h.dir_eq, Layout.sync_layout h.valid] at hsync
  cases hsync
  refine ⟨?_, hp, hp, rfl⟩
  exact
    { valid := Layout.sync_valid h.valid
      first := h.first
      dir_eq := rfl
      wal_eq := rfl
      payloads := h.payloads }

theorem StoreAt.run (op : StoreOp) :
    (∃ l', StoreAt metadata segmentSize l' (op.run (s, dir)).1 (op.run (s, dir)).2) ∧
      ((op.run (s, dir)).1.pending = none →
        s.pending = none ∧ (op.run (s, dir)).1.index = s.index ++ op.events) := by
  cases op with
  | ship events => exact h.ship events
  | sync =>
    unfold StoreOp.run StoreOp.events
    dsimp only
    split
    · exact ⟨⟨l, h⟩, fun hp => ⟨hp, (List.append_nil _).symm⟩⟩
    · next receipt r hsync =>
      obtain ⟨hat, hp, hp', hindex⟩ := h.sync hsync
      exact ⟨⟨_, hat⟩, fun _ => ⟨hp, by rw [hindex, List.append_nil]⟩⟩

/-- A store that has not failed has everything that was shipped to it. -/
theorem StoreAt.runAll (ops : List StoreOp) :
    (∃ l', StoreAt metadata segmentSize l' (ops.foldl StoreOp.run (s, dir)).1
        (ops.foldl StoreOp.run (s, dir)).2) ∧
      ((ops.foldl StoreOp.run (s, dir)).1.pending = none →
        s.pending = none ∧ (ops.foldl StoreOp.run (s, dir)).1.index = s.index ++ shipped ops) := by
  induction ops generalizing l s dir with
  | nil => exact ⟨⟨l, h⟩, fun hp => ⟨hp, (List.append_nil _).symm⟩⟩
  | cons op ops ih =>
    obtain ⟨⟨l', h'⟩, hone⟩ := h.run op
    obtain ⟨hrest, hindex⟩ := ih h'
    refine ⟨hrest, fun hp => ?_⟩
    obtain ⟨hp', hindex⟩ := hindex hp
    obtain ⟨hp, hone⟩ := hone hp'
    refine ⟨hp, hindex.trans ?_⟩
    rw [hone, List.append_assoc]
    rfl

end

/-! ## Replay -/

omit [Crc32c] in
theorem replay_texts {entries : List Entry} {events : List Event}
    (h : entries.map Entry.payload = events.map Event.text)
    (htext : ∀ e ∈ events, Lossless e.toTraceJson)
    (hkeys : ∀ e ∈ events, ∀ k ∈ reserved, e.attrs[k]? = none) :
    replayIndex entries = .ok events := by
  induction events generalizing entries with
  | nil =>
    rw [List.map_eq_nil_iff.mp h]
    rfl
  | cons e events ih =>
    obtain ⟨entry, rest, rfl, hpayload, hrest⟩ := List.map_eq_cons_iff.mp h
    have hread : JsonText.fromSlice e.text = .ok e.toTraceJson := htext e List.mem_cons_self
    have hback := Event.fromTraceJson_toTraceJson (hkeys e List.mem_cons_self)
    have hrest := ih hrest (fun e' he => htext e' (List.mem_cons_of_mem _ he))
      (fun e' he => hkeys e' (List.mem_cons_of_mem _ he))
    simp only [replayIndex, hpayload, hread, hback, hrest]

omit [Crc32c] [JsonText] in
theorem payloads_numbered (seq : Nat) (ps : List Bytes) :
    (numbered seq ps).map Entry.payload = ps := by
  induction ps generalizing seq with
  | nil => rfl
  | cons p ps ih => simp only [numbered, List.map_cons, ih]

omit [Crc32c] in
/-- Every event of the index came out of an envelope. -/
theorem mem_replayIndex {entries : List Entry} {index : List Event} {e : Event}
    (h : replayIndex entries = .ok index) (he : e ∈ index) :
    ∃ v, Event.fromTraceJson v = some e := by
  induction entries generalizing index with
  | nil =>
    cases h
    cases he
  | cons entry entries ih =>
    rw [replayIndex] at h
    split at h
    · cases h
    next value hvalue =>
    split at h
    · cases h
    next event hevent =>
    split at h
    · cases h
    next rest hrest =>
    cases h
    rcases List.mem_cons.mp he with rfl | he
    · exact ⟨value, hevent⟩
    · exact ih hrest he

/-- Opening the store succeeds, and every query returns the events that were shipped under that id,
in order. -/
def ReturnsAll (metadata : Bytes) (dir : Dir) (events : List Event) : Prop :=
  ∀ segmentSize, ∃ s' dir', WalStore.openDir dir metadata segmentSize = .ok (s', dir') ∧
    ∀ cid, s'.query cid = events.filter fun e => e.cid == cid

theorem returnsAll_of_keys (hfit : MetadataFits metadata) (h : StoreAt metadata segmentSize l s dir)
    (hsynced : l.synced = l.tail.length) (htext : ∀ e ∈ s.index, Lossless e.toTraceJson)
    (hkeys : ∀ e ∈ s.index, ∀ k ∈ reserved, e.attrs[k]? = none) :
    ReturnsAll metadata dir s.index := by
  intro size
  obtain ⟨w, d, hopen⟩ := Layout.open_synced h.valid hfit hsynced size
  have hreplay : replayIndex l.entries = .ok s.index := by
    refine replay_texts ?_ htext hkeys
    rw [Layout.entries, payloads_numbered, h.payloads]
  refine ⟨⟨w, s.index, none⟩, d, ?_, fun cid => rfl⟩
  unfold WalStore.openDir
  rw [h.dir_eq, hopen]
  dsimp only
  rw [hreplay]

theorem keys_of_returnsAll {events : List Event} (h : ReturnsAll metadata dir events) {e : Event}
    (he : e ∈ events) {k : String} (hk : k ∈ reserved) : e.attrs[k]? = none := by
  obtain ⟨s', dir', hopen, hquery⟩ := h 0
  have hmem : e ∈ s'.query e.cid := by
    rw [hquery]
    exact List.mem_filter.mpr ⟨he, beq_self_eq_true _⟩
  unfold WalStore.openDir at hopen
  split at hopen
  · cases hopen
  split at hopen
  · cases hopen
  next index hindex =>
  cases hopen
  obtain ⟨v, hv⟩ := mem_replayIndex hindex (List.mem_filter.mp hmem).1
  exact Event.fromTraceJson_eq_some hv hk

theorem fits_of_returnsAll {events : List Event} (h : ReturnsAll metadata dir events)
    (hdir : ∀ s ∈ dir, ∃ crc rest, s.bytes = header metadata crc ++ rest) (hne : events ≠ []) :
    MetadataFits metadata := by
  by_contra hfit
  obtain ⟨e, he⟩ := List.exists_mem_of_ne_nil _ hne
  obtain ⟨s', dir', hopen, hquery⟩ := h 0
  have hmem : e ∈ s'.query e.cid := by
    rw [hquery]
    exact List.mem_filter.mpr ⟨he, beq_self_eq_true _⟩
  unfold WalStore.openDir at hopen
  split at hopen
  · cases hopen
  next entries wal d hwal =>
  obtain rfl := openDir_headers hfit hdir hwal
  cases hopen
  cases hmem

/-- A store that was synced returns what was shipped if and only if the metadata of its log fits
into a record and no event has an attribute under a reserved key; an event comes back from its
envelope under the same condition. -/
theorem store_returns_shipped_iff {ops : List StoreOp} {receipt : Nat}
    (htext : ∀ e ∈ shipped ops, Lossless e.toTraceJson)
    (hsync : (ops.foldl StoreOp.run (WalStore.create metadata segmentSize)).1.sync
      (ops.foldl StoreOp.run (WalStore.create metadata segmentSize)).2 = .ok (receipt, s, dir))
    (hne : shipped ops ≠ [] ∨ envelopeHeader + metadata.length ≤ maxEnvelopeLen) :
    (ReturnsAll metadata dir (shipped ops) ↔
      envelopeHeader + metadata.length ≤ maxEnvelopeLen ∧
        ∀ e ∈ shipped ops, ∀ k ∈ reserved, e.attrs[k]? = none) ∧
    ∀ e, Event.fromTraceJson e.toTraceJson = some e ↔ ∀ k ∈ reserved, e.attrs[k]? = none := by
  obtain ⟨⟨l, hat⟩, hindex⟩ := (storeAt_create metadata segmentSize).runAll ops
  obtain ⟨hat, hp, -, hsame⟩ := hat.sync hsync
  have hall : s.index = shipped ops := by
    rw [hsame]
    exact (hindex hp).2
  refine ⟨⟨fun h => ⟨?_, fun e he k hk => keys_of_returnsAll h he hk⟩, fun ⟨hfit, hkeys⟩ => ?_⟩,
    Event.fromTraceJson_toTraceJson_iff⟩
  · rcases hne with hne | hfit
    · exact fits_of_returnsAll h (fun t ht => l.sync.headed (hat.dir_eq ▸ ht)) hne
    · exact hfit
  · rw [← hall] at htext hkeys ⊢
    exact returnsAll_of_keys hfit hat rfl htext hkeys

end Store

/-! ## Concrete runs -/

mutual

/-- The text of a value without floats whose strings need no escape. -/
def plainText : Value → String
  | .null => "null"
  | .bool b => if b then "true" else "false"
  | .number (.posInt n) => toString n.toNat
  | .number (.negInt n) => toString n.toInt
  | .number (.float _) => ""
  | .string s => "\"" ++ s ++ "\""
  | .array a => "[" ++ plainItems a ++ "]"
  | .object o => "\x7b" ++ plainEntries o ++ "\x7d"

def plainItems : List Value → String
  | [] => ""
  | [v] => plainText v
  | v :: rest => plainText v ++ "," ++ plainItems rest

def plainEntries : List (String × Value) → String
  | [] => ""
  | [(k, v)] => "\"" ++ k ++ "\":" ++ plainText v
  | (k, v) :: rest => "\"" ++ k ++ "\":" ++ plainText v ++ "," ++ plainEntries rest

end

def plainBytes (v : Value) : Bytes := (plainText v).toByteArray.data.toList

/-- The plain texts of these values can be read. -/
@[reducible] def reading (vs : List Value) : JsonText where
  toText := plainBytes
  fromSlice b :=
    match vs.find? fun v => plainBytes v == b with
    | some v => .ok v
    | none => .error "expected value"

theorem lossless_reading {vs : List Value} (hnodup : (vs.map plainBytes).Nodup) {v : Value}
    (hv : v ∈ vs) : @Lossless (reading vs) v := by
  have hfind : vs.find? (fun u => plainBytes u == plainBytes v) = some v := by
    induction vs with
    | nil => cases hv
    | cons u vs ih =>
      rw [List.map_cons, List.nodup_cons] at hnodup
      rcases List.mem_cons.mp hv with rfl | hv
      · exact List.find?_cons_of_pos (beq_self_eq_true _)
      · have hne : plainBytes u ≠ plainBytes v :=
          fun heq => hnodup.1 (heq ▸ List.mem_map_of_mem hv)
        rw [List.find?_cons_of_neg (by simpa using hne)]
        exact ih hnodup.2 hv
  unfold Lossless
  show (match vs.find? (fun u => plainBytes u == plainBytes v) with
    | some v => Except.ok v
    | none => .error "expected value") = .ok v
  rw [hfind]

theorem sync_of_pending {s : WalStore} (dir : Dir) (h : s.pending = none) :
    ∃ receipt s' dir', s.sync dir = .ok (receipt, s', dir') := by
  unfold WalStore.sync
  rw [h]
  exact ⟨_, _, _, rfl⟩

/-- One event, with an attribute under this key. -/
def ping (key : String) : Event := (Event.new "c" "ping").withAttr key (.string "d")

/-- The event is shipped to a store without metadata, and the store is synced. -/
def pinged (key : String) : WalStore × Dir :=
  [StoreOp.ship [ping key]].foldl (@StoreOp.run castagnoli (reading [(ping key).toTraceJson]))
    (@WalStore.create castagnoli [] 1000)

theorem store_returns_shipped_iff_demo :
    ∃ receipt s dir, (pinged "n").1.sync (pinged "n").2 = .ok (receipt, s, dir) ∧
      @ReturnsAll castagnoli (reading [(ping "n").toTraceJson]) [] dir [ping "n"] := by
  obtain ⟨receipt, s, dir, hsync⟩ :=
    sync_of_pending (pinged "n").2 (by decide +kernel : (pinged "n").1.pending = none)
  have htext : ∀ e ∈ shipped [StoreOp.ship [ping "n"]],
      @Lossless (reading [(ping "n").toTraceJson]) e.toTraceJson := by
    intro e he
    rw [show e = ping "n" from List.mem_singleton.mp he]
    exact @lossless_reading [(ping "n").toTraceJson] (List.nodup_singleton _) _ List.mem_cons_self
  have hiff :=
    @store_returns_shipped_iff castagnoli (reading [(ping "n").toTraceJson]) [] 1000 s dir
    [StoreOp.ship [ping "n"]] receipt htext hsync (.inr (by decide))
  refine ⟨receipt, s, dir, hsync, hiff.1.mpr ⟨by decide, fun e he k hk => ?_⟩⟩
  rw [show e = ping "n" from List.mem_singleton.mp he]
  unfold ping Event.withAttr
  rw [OrdMap.getElem?_insert_of_ne _ (by rintro rfl; exact absurd hk (by decide))]
  exact Std.ExtTreeMap.getElem?_empty

/-- An attribute that is called `cid` takes the place of the id: the event is not found under its
own id any more. -/
theorem reserved_key_lost :
    ∃ receipt s dir, (pinged "cid").1.sync (pinged "cid").2 = .ok (receipt, s, dir) ∧
      ¬ @ReturnsAll castagnoli (reading [(ping "cid").toTraceJson]) [] dir [ping "cid"] ∧
      Event.fromTraceJson (ping "cid").toTraceJson ≠ some (ping "cid") := by
  obtain ⟨receipt, s, dir, hsync⟩ :=
    sync_of_pending (pinged "cid").2 (by decide +kernel : (pinged "cid").1.pending = none)
  have hkey : (ping "cid").attrs["cid"]? = some (.string "d") := by
    unfold ping Event.withAttr
    exact Std.ExtTreeMap.getElem?_insert_self
  refine ⟨receipt, s, dir, hsync, fun h => ?_, fun h => ?_⟩
  · rw [@keys_of_returnsAll castagnoli (reading _) _ _ _ h _ List.mem_cons_self "cid"
      (by decide)] at hkey
    cases hkey
  · rw [Event.fromTraceJson_eq_some h (by decide : "cid" ∈ reserved)] at hkey
    cases hkey

end P2P333.Substrate
