import P2P333.Lib.OrdMap

/-!
# Trace events

`Event`, `to_trace_json` and `from_trace_json` of `substrate/crates/ltdd/src/lib.rs`. The envelope
is one flat object: three reserved keys, and the attributes beside them. An attribute under a
reserved key takes its place, and the reader drops it.

JSON values are those of `serde_json`; its map is ordered by key. An object is kept as the list of
its entries, and a float by its bits.

Results:
1. `fromTraceJson_eq_some`: what the reader returns has no attribute under a reserved key.
2. `fromTraceJson_toTraceJson_iff`: an event comes back from its envelope if and only if it has
   none.
-/

namespace P2P333.Substrate

open Lib Std

/-! ## Definitions -/

/-- The numbers of JSON, as `serde_json` keeps them. -/
inductive Number where
  | posInt (n : UInt64)
  | negInt (n : Int64)
  | float (bits : UInt64)
deriving DecidableEq

/-- A value of JSON. -/
inductive Value where
  | null
  | bool (b : Bool)
  | number (n : Number)
  | string (s : String)
  | array (a : List Value)
  | object (o : List (String × Value))

namespace Value

def asStr : Value → Option String
  | .string s => some s
  | _ => none

def asU64 : Value → Option UInt64
  | .number (.posInt n) => some n
  | _ => none

def asObject : Value → Option (OrdMap String Value)
  | .object o => some (OrdMap.ofEntries o)
  | _ => none

end Value

structure Event where
  cid : String
  event : String
  attrs : OrdMap String Value

/-- The keys of the envelope itself. -/
def reserved : List String := ["cid", "cycle_id", "event"]

namespace Event

def new (cid event : String) : Event := ⟨cid, event, ∅⟩

/-- The source's `with`. -/
def withAttr (e : Event) (key : String) (value : Value) : Event :=
  { e with attrs := e.attrs.insert key value }

/-- The reserved keys are written first, and the attributes over them. -/
def envelope (e : Event) : OrdMap String Value :=
  let o : OrdMap String Value := ∅
  let o := o.insert "cid" (.string e.cid)
  let o := o.insert "cycle_id" (.string e.cid)
  let o := o.insert "event" (.string e.event)
  o.insertMany e.attrs.toList

def toTraceJson (e : Event) : Value := .object e.envelope.toList

def fromTraceJson (v : Value) : Option Event := do
  let o ← v.asObject
  let cid ← (o["cid"]? <|> o["cycle_id"]?) >>= Value.asStr
  let event ← o["event"]? >>= Value.asStr
  some ⟨cid, event, o.filter fun k _ => decide (k ∉ reserved)⟩

/-! ## The envelope -/

variable {e : Event}

theorem getElem?_envelope_of_some {k : String} {v : Value} (h : e.attrs[k]? = some v) :
    e.envelope[k]? = some v := by
  unfold envelope
  exact ExtTreeMap.getElem?_insertMany_list_of_mem ReflCmp.compare_self
    ExtTreeMap.distinct_keys_toList (ExtTreeMap.mem_toList_iff_getElem?_eq_some.mpr h)

theorem getElem?_envelope_of_none {k : String} (h : e.attrs[k]? = none) :
    e.envelope[k]? = if k = "event" then some (.string e.event)
      else if k = "cycle_id" then some (.string e.cid)
      else if k = "cid" then some (.string e.cid) else none := by
  have hkeys : (e.attrs.toList.map Prod.fst).contains k = false := by
    rw [← Bool.not_eq_true, List.contains_iff_mem, List.mem_map]
    rintro ⟨⟨k', v⟩, hmem, rfl⟩
    rw [ExtTreeMap.mem_toList_iff_getElem?_eq_some.mp hmem] at h
    cases h
  unfold envelope
  rw [ExtTreeMap.getElem?_insertMany_list_of_contains_eq_false hkeys]
  simp only [ExtTreeMap.getElem?_insert, LawfulEqCmp.compare_eq_iff_eq, eq_comm (b := k),
    ExtTreeMap.getElem?_empty]

theorem asObject_toTraceJson (e : Event) : e.toTraceJson.asObject = some e.envelope :=
  congrArg some (OrdMap.ofEntries_of_perm (List.Perm.refl _))

/-- The reader never returns an attribute under a reserved key. -/
theorem fromTraceJson_eq_some {v : Value} (h : fromTraceJson v = some e) {k : String}
    (hk : k ∈ reserved) : e.attrs[k]? = none := by
  unfold fromTraceJson at h
  obtain ⟨o, -, h⟩ := Option.bind_eq_some_iff.mp h
  obtain ⟨cid, -, h⟩ := Option.bind_eq_some_iff.mp h
  obtain ⟨event, -, h⟩ := Option.bind_eq_some_iff.mp h
  cases h
  rw [Option.eq_none_iff_forall_ne_some]
  intro v hv
  have := (OrdMap.getElem?_filter_eq_some.mp hv).2
  exact of_decide_eq_true this hk

theorem fromTraceJson_toTraceJson (h : ∀ k ∈ reserved, e.attrs[k]? = none) :
    fromTraceJson e.toTraceJson = some e := by
  have hcid := getElem?_envelope_of_none (h "cid" (by decide))
  have hevent := getElem?_envelope_of_none (h "event" (by decide))
  have hattrs : e.envelope.filter (fun k _ => decide (k ∉ reserved)) = e.attrs := by
    apply ExtTreeMap.ext_getElem?
    intro k
    rw [ExtTreeMap.getElem?_filter']
    by_cases hk : k ∈ reserved
    · rw [h k hk, Option.filter_eq_none_iff]
      simp [hk]
    · cases hv : e.attrs[k]? with
      | some v => simp [getElem?_envelope_of_some hv, hk]
      | none =>
        simp only [reserved, List.mem_cons, List.not_mem_nil, or_false, not_or] at hk
        rw [getElem?_envelope_of_none hv, if_neg hk.2.2, if_neg hk.2.1, if_neg hk.1]
        rfl
  unfold fromTraceJson
  rw [asObject_toTraceJson]
  simp only [Option.bind_eq_bind, Option.bind_some]
  rw [hcid, hevent, hattrs]
  rfl

/-- An event comes back if and only if none of its attributes has a reserved key. -/
theorem fromTraceJson_toTraceJson_iff (e : Event) :
    fromTraceJson e.toTraceJson = some e ↔ ∀ k ∈ reserved, e.attrs[k]? = none :=
  ⟨fun h _ hk => fromTraceJson_eq_some h hk, fromTraceJson_toTraceJson⟩

end Event

end P2P333.Substrate
