import P2P333.Platform333.Apps.RtsSession

/-!
# Battles

What a session of `333-platform/src/apps/rts_session.rs` does to the units on the map, whatever the
players send.

A payload is an order or is skipped. Units that stand on the map and apart from each other stay so
under every order, and between places on the map no subtraction overflows.

A selection outlives its unit: only an order to deselect takes an id out of it, so an attack that
kills a selected unit leaves a selection of nobody.

Results:
1. `Order.apply_spec`: no order overflows, or makes units overlap, leave the map or stay dead.
2. `applyInputs_spec`, `selection_iff`: when a frame leaves only living units selected.
3. `battle`: what holds in every run.
-/

namespace P2P333.Platform333.Apps

open Std Lib Platform333.Determinism

/-! ## Places -/

/-- The Chebyshev distance. -/
def chebyshev (x y x' y' : Int) : Int := max |x - x'| |y - y'|

theorem chebyshev_comm (x y x' y' : Int) : chebyshev x y x' y' = chebyshev x' y' x y := by
  rw [chebyshev, chebyshev, abs_sub_comm x, abs_sub_comm y]

/-- A coordinate of the map. -/
def InMap (a : Int32) : Prop := 0 ≤ a ∧ a ≤ mapMax

def UnitTactical.OnMap (u : UnitTactical) : Prop := InMap u.x.raw ∧ InMap u.y.raw

/-- The distance between a unit and a place. -/
def UnitTactical.distanceTo (u : UnitTactical) (cx cy : Int32) : Int :=
  chebyshev cx.toInt cy.toInt u.x.raw.toInt u.y.raw.toInt

section Places

variable {checks : Bool} {a b : Int32}

theorem InMap.toInt (h : InMap a) : 0 ≤ a.toInt ∧ a.toInt ≤ 655360000 :=
  ⟨Int32.le_iff_toInt_le.mp h.1, Int32.le_iff_toInt_le.mp h.2⟩

theorem InMap.clampI32 (a : Int32) : InMap (clampI32 a 0 mapMax) := by
  unfold Apps.clampI32 InMap
  split
  · exact ⟨Int32.le_refl _, by decide⟩
  next hlo =>
  split
  · exact ⟨by decide, Int32.le_refl _⟩
  · next hhi => exact ⟨Int32.not_lt.mp hlo, Int32.not_lt.mp hhi⟩

theorem subI32_of_inMap (ha : InMap a) (hb : InMap b) :
    subI32 checks a b = some (a - b) ∧ (a - b).toInt = a.toInt - b.toInt := by
  have ha := ha.toInt
  have hb := hb.toInt
  have hmin : Int32.minValue.toInt = -2147483648 := by decide
  have hmax : Int32.maxValue.toInt = 2147483647 := by decide
  refine ⟨if_neg fun hout => ?_, ?_⟩
  · rw [hmin, hmax] at hout
    omega
  · rw [Int32.toInt_sub]
    exact Int.bmod_eq_of_le (by omega) (by omega)

theorem absI32_of_ne (h : a ≠ Int32.minValue) :
    absI32 checks a = some a.abs ∧ a.abs.toInt = |a.toInt| := by
  refine ⟨if_neg fun hmin => h hmin.2, ?_⟩
  have hbits : a.toBitVec ≠ BitVec.intMin 32 := fun heq => h (Int32.toBitVec_inj.mp heq)
  exact (BitVec.toInt_abs_eq_natAbs_of_ne_intMin hbits).trans (Int.abs_eq_natAbs _).symm

/-- Between places on the map nothing overflows. -/
theorem distance_of_inMap {x y : Fixed32} (hx : InMap x.raw) (hy : InMap y.raw) (ha : InMap a)
    (hb : InMap b) :
    ∃ d, distance checks x y a b = some d ∧
      d.toInt = chebyshev a.toInt b.toInt x.raw.toInt y.raw.toInt := by
  have hmin : Int32.minValue.toInt = -2147483648 := by decide
  have hside {c c' : Int32} (hc : InMap c) (hc' : InMap c') :
      absI32 checks (c - c') = some (c - c').abs ∧ (c - c').abs.toInt = |c.toInt - c'.toInt| := by
    have hdiff := (@subI32_of_inMap true _ _ hc hc').2
    have hc := hc.toInt
    have hc' := hc'.toInt
    rw [← hdiff]
    refine absI32_of_ne fun heq => ?_
    rw [heq, hmin] at hdiff
    omega
  obtain ⟨habsx, hxval⟩ := hside ha hx
  obtain ⟨habsy, hyval⟩ := hside hb hy
  refine ⟨if (a - x.raw).abs ≥ (b - y.raw).abs then (a - x.raw).abs else (b - y.raw).abs, ?_, ?_⟩
  · unfold distance
    rw [(subI32_of_inMap ha hx).1, (subI32_of_inMap hb hy).1]
    simp only [Option.bind_eq_bind, Option.bind_some, habsx, habsy]
  · rw [chebyshev, ← hxval, ← hyval]
    split
    · next hge => exact (max_eq_left (Int32.le_iff_toInt_le.mp hge)).symm
    · next hlt => exact (max_eq_right (Int32.lt_iff_toInt_lt.mp (Int32.not_le.mp hlt)).le).symm

end Places

/-! ## Orders -/

/-- What a payload asks for. -/
inductive Order where
  | move (unitId : UInt32) (dx dy : Int32)
  | attack (attackerId targetId : UInt32)
  | select (unitId : UInt32)
  | deselect (unitId : UInt32)
deriving DecidableEq

namespace Order

def ofPayload : Bytes → Option Order
  | [] => none
  | cmd :: body =>
    if cmd = Cmd.moveDxDy then
      match body with
      | i1 :: i0 :: x0 :: x1 :: x2 :: x3 :: y0 :: y1 :: y2 :: y3 :: _ =>
        some (.move (unitIdOf i1 i0) (i32OfLe [x0, x1, x2, x3]) (i32OfLe [y0, y1, y2, y3]))
      | _ => none
    else if cmd = Cmd.attackTarget then
      match body with
      | a1 :: a0 :: t1 :: t0 :: _ => some (.attack (unitIdOf a1 a0) (unitIdOf t1 t0))
      | _ => none
    else if cmd = Cmd.selectUnit then
      match body with
      | i1 :: i0 :: _ => some (.select (unitIdOf i1 i0))
      | _ => none
    else if cmd = Cmd.deselectUnit then
      match body with
      | i1 :: i0 :: _ => some (.deselect (unitIdOf i1 i0))
      | _ => none
    else none

/-- What the order does. -/
def apply (checks : Bool) (t : TacticalState) : Order → Option TacticalState
  | move unitId dx dy =>
    (moveUnit checks unitId dx dy t.units).map fun units => { t with units := units }
  | attack attackerId targetId =>
    (attackTarget checks attackerId targetId t.units).map fun units => { t with units := units }
  | select unitId => some
    (if t.units.any (·.unitId = unitId) then
      { t with selectedUnits := t.selectedUnits.insert unitId () } else t)
  | deselect unitId => some { t with selectedUnits := t.selectedUnits.erase unitId }

end Order

theorem applyInput_eq (checks : Bool) (t : TacticalState) (input : RtsInput) :
    applyInput checks t input = match Order.ofPayload input.payload with
      | none => some t
      | some order => order.apply checks t := by
  unfold applyInput Order.ofPayload
  cases input.payload with
  | nil => rfl
  | cons cmd body =>
    dsimp only
    split_ifs with hmove hattack hselect hdeselect
    · rcases body with _ | ⟨i1, _ | ⟨i0, _ | ⟨x0, _ | ⟨x1, _ | ⟨x2, _ | ⟨x3, _ | ⟨y0, _ | ⟨y1,
        _ | ⟨y2, _ | ⟨y3, rest⟩⟩⟩⟩⟩⟩⟩⟩⟩⟩
      case cons.cons.cons.cons.cons.cons.cons.cons.cons.cons => exact Option.map_eq_bind.symm
      all_goals rfl
    · rcases body with _ | ⟨a1, _ | ⟨a0, _ | ⟨t1, _ | ⟨t0, rest⟩⟩⟩⟩
      case cons.cons.cons.cons => exact Option.map_eq_bind.symm
      all_goals rfl
    · rcases body with _ | ⟨i1, _ | ⟨i0, rest⟩⟩
      case cons.cons => exact (apply_ite some _ _ _).symm
      all_goals rfl
    · rcases body with _ | ⟨i1, _ | ⟨i0, rest⟩⟩ <;> rfl
    · rfl

/-! ## Units on the map -/

/-- With distinct keys, the first is the only one. -/
theorem updateFirst_eq_map {α κ : Type} [DecidableEq κ] {key : α → κ} {k : κ} {f : α → α}
    {l : List α} (hnodup : (l.map key).Nodup) :
    updateFirst (fun a => decide (key a = k)) f l = l.map fun a => if key a =
    k then f a else a := by
  induction l with
  | nil => rfl
  | cons a l ih =>
    rw [List.map_cons, List.nodup_cons] at hnodup
    rw [updateFirst, List.map_cons]
    by_cases ha : key a = k
    · have hrest : (l.map fun b => if key b = k then f b else b) = l := by
        refine (List.map_congr_left fun b hb => if_neg fun hbk => hnodup.1 ?_).trans
          (List.map_id' l)
        rw [ha, ← hbk]
        exact List.mem_map_of_mem hb
      rw [if_pos (decide_eq_true ha), if_pos ha, hrest]
    · rw [if_neg (by rwa [decide_eq_true_eq]), if_neg ha, ih hnodup.2]

/-- A unit with the id is there. -/
def Living (units : List UnitTactical) (id : UInt32) : Prop := ∃ u ∈ units, u.unitId = id

/-- The units and their points, without their places. -/
def roster (units : List UnitTactical) : List (UInt32 × UInt32) :=
  units.map fun u => (u.unitId, u.hp)

/-- Distinct units, on the map and apart from each other. -/
structure Placed (units : List UnitTactical) : Prop where
  ids : (units.map UnitTactical.unitId).Nodup
  onMap : ∀ u ∈ units, u.OnMap
  apart : ∀ u ∈ units, ∀ v ∈ units, u.unitId ≠ v.unitId →
    unitRadius.toInt ≤ u.distanceTo v.x.raw v.y.raw

/-- Units that stand where they may, with at least one and at most all of the points that they have
started with. -/
structure Legal (initial units : List UnitTactical) : Prop extends Placed units where
  alive : ∀ u ∈ units, 0 < u.hp
  healthy : ∀ u ∈ units, ∃ u₀ ∈ initial, u₀.unitId = u.unitId ∧ u.hp ≤ u₀.hp

theorem Legal.start {units : List UnitTactical} (hplaced : Placed units)
    (halive : ∀ u ∈ units, 0 < u.hp) : Legal units units :=
  { hplaced with
    alive := halive
    healthy := fun u hu => ⟨u, hu, rfl, UInt32.le_refl _⟩ }

section Units

variable {initial units units' : List UnitTactical} {g : UnitTactical → UnitTactical}

theorem Placed.eq_of_unitId (h : Placed units) {u v : UnitTactical} (hu : u ∈ units)
    (hv : v ∈ units) (heq : u.unitId = v.unitId) : u = v :=
  List.inj_on_of_nodup_map h.ids hu hv heq

theorem Placed.sublist (h : Placed units) (hsub : units'.Sublist units) : Placed units' where
  ids := h.ids.sublist (hsub.map _)
  onMap u hu := h.onMap u (hsub.subset hu)
  apart u hu v hv := h.apart u (hsub.subset hu) v (hsub.subset hv)

/-- A change that leaves the ids. -/
structure Stays (g : UnitTactical → UnitTactical) : Prop where
  unitId : ∀ u, (g u).unitId = u.unitId
  x : ∀ u, (g u).x = u.x
  y : ∀ u, (g u).y = u.y

theorem Stays.ids (hg : Stays g) :
    (units.map g).map UnitTactical.unitId = units.map UnitTactical.unitId := by
  rw [List.map_map]
  exact List.map_congr_left fun u _ => hg.unitId u

theorem Placed.map (h : Placed units) (hg : Stays g) : Placed (units.map g) where
  ids := by
    rw [hg.ids]
    exact h.ids
  onMap := List.forall_mem_map.mpr fun u hu => by
    rw [UnitTactical.OnMap, hg.x, hg.y]
    exact h.onMap u hu
  apart := List.forall_mem_map.mpr fun u hu => List.forall_mem_map.mpr fun v hv hne => by
    rw [hg.unitId, hg.unitId] at hne
    rw [UnitTactical.distanceTo, hg.x, hg.y, hg.x, hg.y]
    exact h.apart u hu v hv hne

theorem living_iff_roster {id : UInt32} : Living units id ↔ ∃ hp, (id, hp) ∈ roster units := by
  simp only [Living, roster, List.mem_map, Prod.mk.injEq]
  exact ⟨fun ⟨u, hu, hid⟩ => ⟨u.hp, u, hu, hid, rfl⟩, fun ⟨_, u, hu, hid, _⟩ => ⟨u, hu, hid⟩⟩

/-- Units that only change their places. -/
theorem Legal.of_roster (h : Legal initial units) (hplaced : Placed units')
    (hroster : roster units' = roster units) : Legal initial units' := by
  have hsame {u : UnitTactical} (hu : u ∈ units') :
      ∃ v ∈ units, v.unitId = u.unitId ∧ v.hp = u.hp := by
    have hmem : (u.unitId, u.hp) ∈ roster units' := List.mem_map_of_mem hu
    rw [hroster] at hmem
    obtain ⟨v, hv, heq⟩ := List.mem_map.mp hmem
    exact ⟨v, hv, congrArg Prod.fst heq, congrArg Prod.snd heq⟩
  refine { hplaced with alive := fun u hu => ?_, healthy := fun u hu => ?_ }
  · obtain ⟨v, hv, -, hhp⟩ := hsame hu
    exact hhp ▸ h.alive v hv
  · obtain ⟨v, hv, hid, hhp⟩ := hsame hu
    obtain ⟨u₀, hu₀, hid₀, hle⟩ := h.healthy v hv
    exact ⟨u₀, hu₀, hid₀.trans hid, hhp ▸ hle⟩

/-! ## Moves -/

theorem blocked_eq {checks : Bool} {cx cy : Int32} (unitId : UInt32)
    (hunits : ∀ u ∈ units, u.OnMap) (hx : InMap cx) (hy : InMap cy) :
    blocked checks unitId cx cy units = some (units.any fun u =>
      decide (u.unitId ≠ unitId ∧ u.distanceTo cx cy < unitRadius.toInt)) := by
  induction units with
  | nil => rfl
  | cons u units ih =>
    rw [List.forall_mem_cons] at hunits
    rw [blocked, List.any_cons]
    split
    · next hself =>
      rw [ih hunits.2, decide_eq_false fun hother => hother.1 hself, Bool.false_or]
    · next hother =>
      obtain ⟨d, hd, hval⟩ := @distance_of_inMap checks _ _ _ _ hunits.1.1 hunits.1.2 hx hy
      rw [← UnitTactical.distanceTo] at hval
      simp only [hd, Option.bind_eq_bind, Option.bind_some, ih hunits.2, Int32.lt_iff_toInt_lt,
        hval]
      split
      · next hnear => rw [decide_eq_true ⟨hother, hnear⟩, Bool.true_or]
      · next hfar => rw [decide_eq_false fun hnear => hfar hnear.2, Bool.false_or]

/-- A unit only moves to a place that is free. -/
theorem moveUnit_spec (h : Placed units) (unitId : UInt32) (dx dy : Int32) :
    ∃ units', (∀ checks, moveUnit checks unitId dx dy units = some units') ∧ Placed units' ∧
      roster units' = roster units := by
  unfold moveUnit roster
  split
  · exact ⟨units, fun _ => rfl, h, rfl⟩
  next u hfind =>
  generalize hcx : clampI32 (saturatingAddI32 u.x.raw dx) 0 mapMax = cx
  generalize hcy : clampI32 (saturatingAddI32 u.y.raw dy) 0 mapMax = cy
  have hx : InMap cx := hcx ▸ InMap.clampI32 _
  have hy : InMap cy := hcy ▸ InMap.clampI32 _
  simp only [blocked_eq unitId h.onMap hx hy, Option.bind_eq_bind, Option.bind_some]
  split
  · exact ⟨units, fun _ => rfl, h, rfl⟩
  next hblocked =>
  have hfree {v : UnitTactical} (hv : v ∈ units) (hne : v.unitId ≠ unitId) :
      unitRadius.toInt ≤ v.distanceTo cx cy := by
    refine Int.not_lt.mp fun hnear => hblocked (List.any_eq_true.mpr ⟨v, hv, ?_⟩)
    exact decide_eq_true ⟨hne, hnear⟩
  refine ⟨_, fun _ => rfl, ?_, ?_⟩
  all_goals rw [updateFirst_eq_map h.ids]
  · constructor
    · rw [List.map_map, List.map_congr_left fun v _ => ?_]
      · exact h.ids
      · dsimp only [Function.comp]
        split <;> rfl
    · refine List.forall_mem_map.mpr fun v hv => ?_
      split
      · exact ⟨hx, hy⟩
      · exact h.onMap v hv
    · refine List.forall_mem_map.mpr fun v hv => List.forall_mem_map.mpr fun w hw => ?_
      split
      · next hvid =>
        split
        · next hwid => exact fun hne => absurd (hvid.trans hwid.symm) hne
        · next hwid =>
          intro _
          have hdist := hfree hw hwid
          rw [UnitTactical.distanceTo, chebyshev_comm] at hdist
          exact hdist
      · next hvid =>
        split
        · exact fun _ => hfree hv hvid
        · exact fun hne => h.apart v hv w hw hne
  · rw [List.map_map]
    refine List.map_congr_left fun v _ => ?_
    dsimp only [Function.comp]
    split <;> rfl

/-! ## Attacks -/

/-- The attack is ready, in range and hard enough to kill. -/
def Fatal (units : List UnitTactical) (attackerId targetId : UInt32) : Prop :=
  ∃ a ∈ units, ∃ b ∈ units, a.unitId = attackerId ∧ b.unitId = targetId ∧
    a.attackCooldownRemaining = 0 ∧ b.distanceTo a.x.raw a.y.raw ≤ a.attackRange.raw.toInt ∧
    b.hp ≤ a.attackDamage

theorem saturatingSubU32_le (a b : UInt32) : saturatingSubU32 a b ≤ a := by
  unfold saturatingSubU32
  split
  · next hle => exact UInt32.sub_le hle
  · exact UInt32.zero_le

theorem saturatingSubU32_eq_zero {a b : UInt32} : saturatingSubU32 a b = 0 ↔ a ≤ b := by
  unfold saturatingSubU32
  split
  · next hle =>
    rw [← UInt32.toNat_inj, UInt32.toNat_sub_of_le _ _ hle, UInt32.le_iff_toNat_le]
    exact Nat.sub_eq_zero_iff_le
  · next hlt => exact iff_of_true rfl (UInt32.le_of_lt (UInt32.not_le.mp hlt))

/-- What an attack does to each unit. -/
structure Hits (units : List UnitTactical) (attackerId targetId : UInt32)
    (g : UnitTactical → UnitTactical) : Prop extends Stays g where
  hp_le : ∀ u, (g u).hp ≤ u.hp
  hp_eq_zero : ∀ u ∈ units, (g u).hp = 0 ↔ Fatal units attackerId targetId ∧ u.unitId = targetId

/-- Without a strike nobody is killed. -/
theorem Hits.none {attackerId targetId : UInt32} (halive : ∀ u ∈ units, 0 < u.hp)
    (hmiss : ¬ Fatal units attackerId targetId) : Hits units attackerId targetId id where
  unitId _ := rfl
  x _ := rfl
  y _ := rfl
  hp_le _ := UInt32.le_refl _
  hp_eq_zero u hu := iff_of_false (UInt32.pos_iff_ne_zero.mp (halive u hu)) fun h => hmiss h.1

theorem find?_unitId {id : UInt32} {u : UnitTactical}
    (h : units.find? (·.unitId = id) = some u) : u ∈ units ∧ u.unitId = id :=
  ⟨List.mem_of_find?_eq_some h, of_decide_eq_true (List.find?_some h :)⟩

theorem not_living_of_find? {id : UInt32} (h : units.find? (·.unitId = id) = none) :
    ¬ Living units id := by
  rintro ⟨u, hu, hid⟩
  exact List.find?_eq_none.mp h u hu (decide_eq_true hid)

/-- The units that the ids stand for are the only ones. -/
theorem fatal_iff (h : Placed units) {attacker target : UnitTactical} (ha : attacker ∈ units)
    (hb : target ∈ units) :
    Fatal units attacker.unitId target.unitId ↔ attacker.attackCooldownRemaining = 0 ∧
      target.distanceTo attacker.x.raw attacker.y.raw ≤ attacker.attackRange.raw.toInt ∧
      target.hp ≤ attacker.attackDamage := by
  constructor
  · rintro ⟨a, ha', b, hb', hida, hidb, hkill⟩
    rw [← h.eq_of_unitId ha' ha hida, ← h.eq_of_unitId hb' hb hidb]
    exact hkill
  · exact fun hkill => ⟨attacker, ha, target, hb, rfl, rfl, hkill⟩

def wounded (attacker target u : UnitTactical) : UnitTactical :=
  if u.unitId = target.unitId then { u with hp := saturatingSubU32 u.hp attacker.attackDamage }
  else u

def spent (attacker u : UnitTactical) : UnitTactical :=
  if u.unitId = attacker.unitId then
    { u with attackCooldownRemaining := attacker.attackCooldownMax } else u

theorem stays_wounded (attacker target : UnitTactical) : Stays (wounded attacker target) := by
  constructor <;> intro u <;> unfold wounded <;> split <;> rfl

theorem stays_spent (attacker : UnitTactical) : Stays (spent attacker) := by
  constructor <;> intro u <;> unfold spent <;> split <;> rfl

theorem hp_spent (attacker u : UnitTactical) : (spent attacker u).hp = u.hp := by
  unfold spent
  split <;> rfl

theorem strike_eq (h : Placed units) (attacker target : UnitTactical) :
    strike attacker target units = units.map (spent attacker ∘ wounded attacker target) := by
  unfold strike
  rw [updateFirst_eq_map h.ids, updateFirst_eq_map]
  · exact List.map_map
  · exact (h.map (stays_wounded attacker target)).ids

theorem Hits.strike (h : Placed units) (halive : ∀ u ∈ units, 0 < u.hp)
    {attacker target : UnitTactical} (ha : attacker ∈ units) (hb : target ∈ units)
    (hready : attacker.attackCooldownRemaining = 0)
    (hrange : target.distanceTo attacker.x.raw attacker.y.raw ≤ attacker.attackRange.raw.toInt) :
    Hits units attacker.unitId target.unitId (spent attacker ∘ wounded attacker target) where
  unitId u := ((stays_spent attacker).unitId _).trans ((stays_wounded attacker target).unitId u)
  x u := ((stays_spent attacker).x _).trans ((stays_wounded attacker target).x u)
  y u := ((stays_spent attacker).y _).trans ((stays_wounded attacker target).y u)
  hp_le u := by
    rw [Function.comp, hp_spent, wounded]
    split
    · exact saturatingSubU32_le _ _
    · exact UInt32.le_refl _
  hp_eq_zero u hu := by
    rw [Function.comp, hp_spent, wounded, fatal_iff h ha hb]
    split
    · next hid =>
      rw [h.eq_of_unitId hu hb hid]
      refine saturatingSubU32_eq_zero.trans ?_
      exact ⟨fun hkill => ⟨⟨hready, hrange, hkill⟩, rfl⟩, fun hkill => hkill.1.2.2⟩
    · next hid =>
      exact iff_of_false (UInt32.pos_iff_ne_zero.mp (halive u hu)) fun hkill => hid hkill.2

theorem attack_spec (h : Placed units) (halive : ∀ u ∈ units, 0 < u.hp)
    (attackerId targetId : UInt32) :
    ∃ g, Hits units attackerId targetId g ∧
      ∀ checks, attack checks attackerId targetId units = some (units.map g) := by
  -- Nothing is hit unless both are there, the attack is ready, and the target is in range.
  have hmiss (hsafe : ¬ Fatal units attackerId targetId)
      (hsame : ∀ checks, attack checks attackerId targetId units = some units) :
      ∃ g, Hits units attackerId targetId g ∧
        ∀ checks, attack checks attackerId targetId units = some (units.map g) :=
    ⟨id, .none halive hsafe, fun checks => by rw [hsame, List.map_id]⟩
  cases hattacker : units.find? (·.unitId = attackerId) with
  | none =>
    refine hmiss ?_ fun checks => by rw [attack, hattacker]
    rintro ⟨a, ha, b, hb, hida, -⟩
    exact not_living_of_find? hattacker ⟨a, ha, hida⟩
  | some attacker =>
    cases htarget : units.find? (·.unitId = targetId) with
    | none =>
      refine hmiss ?_ fun checks => by rw [attack, hattacker, htarget]
      rintro ⟨a, ha, b, hb, hida, hidb, -⟩
      exact not_living_of_find? htarget ⟨b, hb, hidb⟩
    | some target =>
      obtain ⟨ha, rfl⟩ := find?_unitId hattacker
      obtain ⟨hb, rfl⟩ := find?_unitId htarget
      have hdist (checks : Bool) : ∃ d, distance checks target.x target.y attacker.x.raw
          attacker.y.raw = some d ∧ d.toInt = target.distanceTo attacker.x.raw attacker.y.raw :=
        distance_of_inMap (h.onMap _ hb).1 (h.onMap _ hb).2 (h.onMap _ ha).1 (h.onMap _ ha).2
      by_cases hready : attacker.attackCooldownRemaining = 0
      · by_cases hrange : target.distanceTo attacker.x.raw attacker.y.raw ≤
            attacker.attackRange.raw.toInt
        · refine ⟨_, .strike h halive ha hb hready hrange, fun checks => ?_⟩
          obtain ⟨d, hd, hval⟩ := hdist checks
          have hin : d ≤ attacker.attackRange.raw := Int32.le_iff_toInt_le.mpr (hval ▸ hrange)
          simp only [attack, hattacker, htarget, hready, hd, Option.bind_eq_bind, Option.bind_some,
            if_true, hin, strike_eq h]
        · refine hmiss (fun hkill => hrange ((fatal_iff h ha hb).mp hkill).2.1) fun checks => ?_
          obtain ⟨d, hd, hval⟩ := hdist checks
          have hout : ¬ d ≤ attacker.attackRange.raw :=
            fun hin => hrange (hval ▸ Int32.le_iff_toInt_le.mp hin)
          simp only [attack, hattacker, htarget, hready, hd, Option.bind_eq_bind, Option.bind_some,
            if_true, hout, if_false]
      · refine hmiss (fun hkill => hready ((fatal_iff h ha hb).mp hkill).1) fun checks => ?_
        simp only [attack, hattacker, htarget, hready, if_false]

/-- Nobody dies of an attack but the target of one that is fatal. -/
theorem attackTarget_spec (h : Placed units) (halive : ∀ u ∈ units, 0 < u.hp)
    (attackerId targetId : UInt32) :
    ∃ units', (∀ checks, attackTarget checks attackerId targetId units = some units') ∧
      Placed units' ∧ (∀ u ∈ units', 0 < u.hp) ∧
      (∀ u ∈ units', ∃ v ∈ units, v.unitId = u.unitId ∧ u.hp ≤ v.hp) ∧
      ∀ id, Living units' id ↔
        Living units id ∧ ¬ (Fatal units attackerId targetId ∧ id = targetId) := by
  obtain ⟨g, hg, hattack⟩ := attack_spec h halive attackerId targetId
  refine ⟨(units.map g).filter (·.hp > 0), fun checks => ?_, ?_, fun u hu => ?_, fun u hu => ?_,
    fun id => ?_⟩
  · rw [attackTarget, hattack]
    rfl
  · exact (h.map hg.toStays).sublist List.filter_sublist
  · exact of_decide_eq_true (List.mem_filter.mp hu).2
  · obtain ⟨v, hv, rfl⟩ := List.mem_map.mp (List.mem_filter.mp hu).1
    exact ⟨v, hv, (hg.unitId v).symm, hg.hp_le v⟩
  · constructor
    · rintro ⟨u, hu, rfl⟩
      obtain ⟨hmem, hpos⟩ := List.mem_filter.mp hu
      obtain ⟨v, hv, rfl⟩ := List.mem_map.mp hmem
      rw [hg.unitId]
      refine ⟨⟨v, hv, rfl⟩, fun hkill => ?_⟩
      exact UInt32.pos_iff_ne_zero.mp (of_decide_eq_true hpos) ((hg.hp_eq_zero v hv).mpr hkill)
    · rintro ⟨⟨u, hu, rfl⟩, hsafe⟩
      refine ⟨g u, List.mem_filter.mpr ⟨List.mem_map_of_mem hu, ?_⟩, hg.unitId u⟩
      exact decide_eq_true (UInt32.pos_iff_ne_zero.mpr fun hzero =>
        hsafe ((hg.hp_eq_zero u hu).mp hzero))

end Units

/-! ## What orders keep -/

/-- Selected, and not there. -/
def Ghost (t : TacticalState) (id : UInt32) : Prop := id ∈ t.selectedUnits ∧ ¬ Living t.units id

/-- The order kills the unit. -/
def Order.Kills (units : List UnitTactical) : Order → UInt32 → Prop
  | .attack attackerId targetId, id => Fatal units attackerId targetId ∧ id = targetId
  | _, _ => False

/-- What an order does to the units and the selection. -/
structure Follows (initial : List UnitTactical) (order : Order) (t t' : TacticalState) : Prop where
  legal : Legal initial t'.units
  ghost_iff : ∀ id, Ghost t' id ↔
    (Ghost t id ∧ order ≠ .deselect id) ∨ (id ∈ t.selectedUnits ∧ order.Kills t.units id)

section Orders

variable {initial : List UnitTactical} {t t' : TacticalState}

theorem any_unitId_iff (units : List UnitTactical) (id : UInt32) :
    units.any (·.unitId = id) = true ↔ Living units id := by
  simp only [List.any_eq_true, decide_eq_true_eq, Living]

theorem mem_selected_insert {ids : OrdSet UInt32} {unitId id : UInt32} :
    id ∈ ids.insert unitId () ↔ unitId = id ∨ id ∈ ids := by
  rw [ExtTreeMap.mem_insert, LawfulEqCmp.compare_eq_iff_eq]

theorem mem_selected_erase {ids : OrdSet UInt32} {unitId id : UInt32} :
    id ∈ ids.erase unitId ↔ unitId ≠ id ∧ id ∈ ids := by
  rw [ExtTreeMap.mem_erase, ne_eq, LawfulEqCmp.compare_eq_iff_eq]

/-- An order is followed, with overflow checks and without. -/
theorem Order.apply_spec (h : Legal initial t.units) (order : Order) :
    ∃ t', (∀ checks, order.apply checks t = some t') ∧ Follows initial order t t' := by
  cases order with
  | move unitId dx dy =>
    obtain ⟨units, hunits, hplaced, hroster⟩ := moveUnit_spec h.toPlaced unitId dx dy
    refine ⟨{ t with units := units }, fun checks => by rw [apply, hunits]; rfl,
      h.of_roster hplaced hroster, fun id => ?_⟩
    have hliving : Living units id ↔ Living t.units id := by
      rw [living_iff_roster, living_iff_roster, hroster]
    simp only [Ghost, hliving, Kills, ne_eq, reduceCtorEq, not_false_eq_true, and_true, and_false,
      or_false]
  | attack attackerId targetId =>
    obtain ⟨units, hunits, hplaced, halive, hhurt, hliving⟩ :=
      attackTarget_spec h.toPlaced h.alive attackerId targetId
    refine ⟨{ t with units := units }, fun checks => by rw [apply, hunits]; rfl, ?_, fun id => ?_⟩
    · refine { hplaced with alive := halive, healthy := fun u hu => ?_ }
      obtain ⟨v, hv, hid, hle⟩ := hhurt u hu
      obtain ⟨u₀, hu₀, hid₀, hle₀⟩ := h.healthy v hv
      exact ⟨u₀, hu₀, hid₀.trans hid, UInt32.le_trans hle hle₀⟩
    · -- Nobody that is not there is killed.
      simp only [Ghost, hliving, Kills, ne_eq, reduceCtorEq, not_false_eq_true, and_true]
      rw [not_and_or, not_not, and_or_left]
  | select unitId =>
    refine ⟨_, fun checks => rfl, ?_, fun id => ?_⟩
    · split <;> exact h
    · simp only [Kills, ne_eq, reduceCtorEq, not_false_eq_true, and_true, and_false, or_false]
      split
      · next hthere =>
        have hthere := (any_unitId_iff t.units unitId).mp hthere
        simp only [Ghost, mem_selected_insert]
        refine and_congr_left fun hgone => or_iff_right ?_
        rintro rfl
        exact hgone hthere
      · exact Iff.rfl
  | deselect unitId =>
    refine ⟨_, fun checks => rfl, h, fun id => ?_⟩
    simp only [Kills, and_false, or_false, Ghost, mem_selected_erase, ne_eq,
      Order.deselect.injEq]
    exact and_assoc.trans and_comm

end Orders

/-! ## Frames -/

/-- An order to deselect the unit is among the inputs. -/
def Deselected (inputs : List RtsInput) (id : UInt32) : Prop :=
  ∃ input ∈ inputs, Order.ofPayload input.payload = some (.deselect id)

/-- Each attack that kills a selected unit is followed by an order to deselect it. -/
def Spares (checks : Bool) : TacticalState → List RtsInput → Prop
  | _, [] => True
  | t, input :: inputs =>
    (∀ order, Order.ofPayload input.payload = some order → ∀ id ∈ t.selectedUnits,
      order.Kills t.units id → Deselected inputs id) ∧
    ∀ t', applyInput checks t input = some t' → Spares checks t' inputs

/-- Every selected id is that of a unit that is there. -/
def SelectionLives (t : TacticalState) : Prop := ∀ id ∈ t.selectedUnits, Living t.units id

theorem selectionLives_iff {t : TacticalState} : SelectionLives t ↔ ∀ id, ¬ Ghost t id := by
  simp only [SelectionLives, Ghost, not_and, not_not]

theorem deselected_cons {input : RtsInput} {inputs : List RtsInput} {id : UInt32} :
    Deselected (input :: inputs) id ↔
      Order.ofPayload input.payload = some (.deselect id) ∨ Deselected inputs id := by
  rw [Deselected, List.exists_mem_cons_iff]
  rfl

section Frames

variable {initial : List UnitTactical} {t t' : TacticalState} {checks : Bool}

/-- What a list of inputs does. The selection lives afterwards if every ghost is laid: those that
are there before, and those that the inputs make. -/
theorem applyInputs_spec (h : Legal initial t.units) (inputs : List RtsInput) :
    ∃ t', (∀ checks, applyInputsToTactical checks inputs t = some t') ∧ Legal initial t'.units ∧
      ∀ checks, SelectionLives t' ↔
        (∀ id, Ghost t id → Deselected inputs id) ∧ Spares checks t inputs := by
  induction inputs generalizing t with
  | nil =>
    refine ⟨t, fun _ => rfl, h, fun checks => ?_⟩
    rw [selectionLives_iff, Spares, and_true]
    exact forall_congr' fun id => ⟨fun hno hghost => absurd hghost hno, fun hall hghost => by
      obtain ⟨input, hinput, -⟩ := hall hghost
      cases hinput⟩
  | cons input inputs ih =>
    cases horder : Order.ofPayload input.payload with
    | none =>
      have hskip (checks : Bool) : applyInput checks t input = some t := by
        rw [applyInput_eq, horder]
      obtain ⟨t', ht', hlegal, hlives⟩ := ih h
      refine ⟨t', fun checks => ?_, hlegal, fun checks => ?_⟩
      · rw [applyInputsToTactical, List.foldlM_cons, hskip]
        exact ht' checks
      · rw [hlives checks]
        simp only [deselected_cons, horder, Spares, hskip, reduceCtorEq, false_or, false_imp_iff,
          implies_true, true_and, Option.some.injEq, forall_eq']
    | some order =>
      obtain ⟨mid, hmid, hlegal, hghost⟩ := Order.apply_spec h order
      have hstep (checks : Bool) : applyInput checks t input = some mid := by
        rw [applyInput_eq, horder]
        exact hmid checks
      obtain ⟨t', ht', hlegal', hlives⟩ := ih hlegal
      refine ⟨t', fun checks => ?_, hlegal', fun checks => ?_⟩
      · rw [applyInputsToTactical, List.foldlM_cons, hstep]
        exact ht' checks
      · rw [hlives checks]
        simp only [deselected_cons, horder, Spares, hstep, Option.some.injEq, forall_eq', hghost]
        rw [← and_assoc, ← forall_and]
        refine and_congr_left' (forall_congr' fun id => ?_)
        tauto

theorem stays_tickCooldown : Stays tickCooldown := by
  constructor <;> intro u <;> unfold tickCooldown <;> split <;> rfl

theorem roster_tickCooldown (units : List UnitTactical) :
    roster (units.map tickCooldown) = roster units := by
  unfold roster
  rw [List.map_map]
  refine List.map_congr_left fun u _ => ?_
  unfold Function.comp tickCooldown
  split <;> rfl

theorem Legal.living_of_roster {units units' : List UnitTactical} (h : roster units' = roster units)
    (id : UInt32) : Living units' id ↔ Living units id := by
  rw [living_iff_roster, living_iff_roster, h]

variable [Blake3]

theorem nextTactical_spec {n : Nat} {inputs : List RtsInput} (h : Legal initial t.units)
    (hnext : RtsSession.nextTactical checks n inputs t = some t') :
    Legal initial t'.units ∧ (SelectionLives t' ↔
      (∀ id, Ghost t id → Deselected inputs id) ∧ Spares checks t inputs) := by
  obtain ⟨mid, hmid, hlegal, hlives⟩ := applyInputs_spec h inputs
  unfold RtsSession.nextTactical at hnext
  obtain ⟨mid', hmid', hnext⟩ := Option.bind_eq_some_iff.mp hnext
  obtain ⟨turn, -, hnext⟩ := Option.bind_eq_some_iff.mp hnext
  rw [hmid] at hmid'
  cases hmid'
  cases hnext
  have hroster := roster_tickCooldown mid.units
  refine ⟨hlegal.of_roster (hlegal.toPlaced.map stays_tickCooldown) hroster, ?_⟩
  rw [← hlives checks]
  exact forall₂_congr fun id _ => Legal.living_of_roster hroster id

namespace RtsSession

/-- One call. A panic ends the run. -/
def step (checks : Bool) (s : RtsSession) (call : Call) : Option RtsSession :=
  (s.advanceFrame checks call).map Prod.snd

/-- Any call. -/
def AnyCall (_ : RtsSession) (_ : Call) : Prop := True

/-- A frame that leaves no selected unit dead. After the end there is nothing to spare. -/
def Spared (checks : Bool) (s : RtsSession) (call : Call) : Prop :=
  s.tactical.winner = none → Spares checks s.tactical call.inputs

variable {s s' : RtsSession} {call : Call}

theorem tactical_of_step (h : step checks s call = some s') :
    s'.tactical = s.tactical ∧ s.tactical.winner.isSome ∨
      s.tactical.winner = none ∧
        nextTactical checks s.initialOwnerCount call.inputs s.tactical = some s'.tactical := by
  obtain ⟨⟨hash, s'⟩, hadvance, rfl⟩ := Option.map_eq_some_iff.mp h
  rcases advanceFrame_cases hadvance with ⟨hfrozen, -, rfl⟩ | ⟨hactive, hadv⟩
  · exact .inl ⟨rfl, hfrozen⟩
  · exact .inr ⟨hactive, hadv.tactical⟩

theorem legal_step (h : Legal initial s.tactical.units) (hstep : step checks s call = some s') :
    Legal initial s'.tactical.units := by
  rcases tactical_of_step hstep with ⟨hsame, -⟩ | ⟨-, hnext⟩
  · rwa [hsame]
  · exact (nextTactical_spec h hnext).1

/-- A frame leaves a living selection exactly if it spares what is selected. -/
theorem selection_iff (h : Legal initial s.tactical.units) (hlives : SelectionLives s.tactical)
    (hstep : step checks s call = some s') :
    SelectionLives s'.tactical ↔ Spared checks s call := by
  rcases tactical_of_step hstep with ⟨hsame, hfrozen⟩ | ⟨hactive, hnext⟩
  · rw [hsame]
    refine iff_of_true hlives fun hnone => ?_
    rw [hnone] at hfrozen
    cases hfrozen
  · rw [(nextTactical_spec h hnext).2, Spared]
    have hno := selectionLives_iff.mp hlives
    exact ⟨fun hspares _ => hspares.2,
      fun hspares => ⟨fun id hghost => absurd hghost (hno id), hspares hactive⟩⟩

/-- With a winner nothing changes. -/
theorem frozen (hwinner : s.tactical.winner.isSome) (h : Reachable (step checks) AnyCall s s') :
    s'.tactical = s.tactical := by
  refine h.invariant
    (I := fun s' => s'.tactical = s.tactical) rfl fun s₁ call s₂ _ hsame _ hstep => ?_
  rcases tactical_of_step hstep with ⟨hsame', -⟩ | ⟨hnone, -⟩
  · exact hsame'.trans hsame
  · rw [hsame, Option.eq_none_iff_forall_ne_some] at hnone
    obtain ⟨w, hw⟩ := Option.isSome_iff_exists.mp hwinner
    exact absurd hw (hnone w)

/-- What holds in every run. The units stay legal, no order overflows, a winner ends the game; and
the selection lives in a run of frames that spare it, and in no other. -/
theorem battle {setup : Setup} {units : List UnitTactical} (hplaced : Placed units)
    (halive : ∀ u ∈ units, 0 < u.hp)
    (h : Reachable (step checks) AnyCall (new setup units) s) :
    Legal units s.tactical.units ∧
    (∀ inputs, ∃ t', ∀ checks, applyInputsToTactical checks inputs s.tactical = some t') ∧
    (s.tactical.winner.isSome → ∀ s', Reachable (step checks) AnyCall s s' →
      s'.tactical = s.tactical) ∧
    (Reachable (step checks) (Spared checks) (new setup units) s → SelectionLives s.tactical) ∧
    (SelectionLives s.tactical → ∀ call s', step checks s call = some s' →
      (SelectionLives s'.tactical ↔ Spared checks s call)) := by
  have hlegal {s : RtsSession} (h : Reachable (step checks) AnyCall (new setup units) s) :
      Legal units s.tactical.units :=
    h.invariant (I := fun s => Legal units s.tactical.units) (.start hplaced halive)
      fun _ _ _ _ hlegal _ hstep => legal_step hlegal hstep
  refine ⟨hlegal h, fun inputs => ?_, fun hwinner s' => frozen hwinner, fun hspared => ?_,
    fun hlives call s' => selection_iff (hlegal h) hlives⟩
  · obtain ⟨t', ht', -⟩ := applyInputs_spec (hlegal h) inputs
    exact ⟨t', ht'⟩
  · refine hspared.invariant (I := fun s => SelectionLives s.tactical) ?_
      fun s₁ call s₂ hreach hlives hok hstep => ?_
    · intro id hid
      exact absurd hid ExtTreeMap.not_mem_empty
    · exact (selection_iff (hlegal (hreach.mono fun _ _ _ => trivial)) hlives hstep).mpr hok

end RtsSession

end Frames

namespace BattleDemo

open RtsSession

@[reducible] def zeroBlake3 : Blake3 where
  hash _ := .replicate 32 0

attribute [local instance] zeroBlake3

instance (units : List UnitTactical) : Decidable (Placed units) :=
  decidable_of_iff
    ((units.map UnitTactical.unitId).Nodup ∧
      (∀ u ∈ units, (0 ≤ u.x.raw ∧ u.x.raw ≤ mapMax) ∧ 0 ≤ u.y.raw ∧ u.y.raw ≤ mapMax) ∧
      ∀ u ∈ units, ∀ v ∈ units, u.unitId ≠ v.unitId →
        unitRadius.toInt ≤ u.distanceTo v.x.raw v.y.raw)
    ⟨fun h => ⟨h.1, h.2.1, h.2.2⟩, fun h => ⟨h.ids, h.onMap, h.apart⟩⟩

/-- The first player has one unit, the second two. -/
def squad : List UnitTactical :=
  [⟨1, 1, ⟨0⟩, ⟨0⟩, 10, 10, 0, 0, ⟨1000⟩, 10, 3, 0⟩,
  ⟨2, 2, ⟨500⟩, ⟨0⟩, 10, 10, 0, 0, ⟨1000⟩, 10, 3, 0⟩,
    ⟨3, 2, ⟨900⟩, ⟨0⟩, 10, 10, 0, 0, ⟨1000⟩, 10, 3, 0⟩]

theorem placed_squad : Placed squad ∧ ∀ u ∈ squad, 0 < u.hp := by decide +kernel

def setup : Setup := ⟨100, 1, 4, 4, true⟩

/-- The second unit is selected and killed. -/
def kill : List RtsInput := [⟨[0x03, 0, 2]⟩, ⟨[0x02, 0, 1, 0, 2]⟩]

/-- It is taken out of the selection, and the third is put in. -/
def buried : List RtsInput := [⟨[0x04, 0, 2]⟩, ⟨[0x03, 0, 3]⟩]

theorem battle_squad : ∃ s, s.tactical.units.map UnitTactical.unitId = [1, 3] ∧
    Legal squad s.tactical.units ∧
    ∀ call s', step true s call = some s' → (SelectionLives s'.tactical ↔ Spared true s call) := by
  have hrun : (step true (new setup squad) ⟨110, kill ++ buried⟩).map (fun s =>
      (s.tactical.units.map UnitTactical.unitId, s.tactical.selectedUnits.keys)) =
      some ([1, 3], [3]) := by
    decide +kernel
  obtain ⟨s, hstep, hend⟩ := Option.map_eq_some_iff.mp hrun
  obtain ⟨hunits, hselected⟩ := Prod.mk.inj hend
  have hs : Reachable (step true) AnyCall (new setup squad) s := .tail .refl trivial hstep
  obtain ⟨hlegal, -, -, -, hexact⟩ := battle placed_squad.1 placed_squad.2 hs
  refine ⟨s, hunits, hlegal, hexact fun id hid => ?_⟩
  have hthree : id ∈ s.tactical.units.map UnitTactical.unitId := by
    rw [← ExtTreeMap.mem_keys, hselected, List.mem_singleton] at hid
    rw [hunits, hid]
    decide
  exact List.mem_map.mp hthree

/-- The dead unit stays selected. -/
theorem dead_selected : Placed squad ∧ (∀ u ∈ squad, 0 < u.hp) ∧
    ∃ s, Reachable (step true) AnyCall (new setup squad) s ∧ ¬ SelectionLives s.tactical := by
  have hrun : ((step true (new setup squad) ⟨110, kill⟩).map fun s =>
      decide (2 ∈ s.tactical.selectedUnits ∧ ¬ s.tactical.units.any (·.unitId = 2))) =
      some true := by
    decide +kernel
  obtain ⟨s, hstep, hend⟩ := Option.map_eq_some_iff.mp hrun
  obtain ⟨hselected, hdead⟩ := of_decide_eq_true hend
  exact ⟨placed_squad.1, placed_squad.2, s, .tail .refl trivial hstep,
    fun hlives => hdead ((any_unitId_iff _ 2).mpr (hlives 2 hselected))⟩

end BattleDemo

end P2P333.Platform333.Apps
