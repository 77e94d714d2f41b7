import Mathlib

/-!
# The write side of a TCP peer

`PeerState`, `PeerSession` and `TcpEndpoint::write_all` in `333-transfer/src/tcp.rs`. A session
shares its `alive` flag with its reader thread, which may clear it at any time; a flag is a place in
`Flags`. The environment answers while a session is visited (`Turn`): which flags are cleared before
the check, whether a redial succeeds and whether a write does. The streams and the frame are left
out. A panic is `none`.

Results:
1. `heal_spec`, `deliver_spec`: what a send does with one session, and that it is legal.
2. `Inv.writeAll`: what it does with all of them.
3. `peers_safe`: no run is stopped by an illegal transition, and no dialed peer is forgotten.
-/

namespace P2P333.Transfer333.Tcp

open Function

/-! ## Sessions -/

/-- Per-peer connection state. -/
inductive PeerState where
  | live
  | suspect
  | dead
deriving DecidableEq

def PeerState.canBecome : PeerState → PeerState → Bool
  | .live, .suspect | .suspect, .live | .suspect, .dead | .dead, .live => true
  | _, _ => false

/-- What the environment does while one session is visited: it clears flags before the check, and
answers a redial and two writes. -/
structure Turn where
  cleared : Nat → Bool
  redial : Except String Unit
  write : Except String Unit
  rewrite : Except String Unit

abbrev Env := Nat → Turn

/-- The flags, the first place that is free, and the number of turns so far. -/
structure Flags where
  up : Nat → Bool
  next : Nat
  clock : Nat

def Flags.clear (h : Flags) (cleared : Nat → Bool) : Flags :=
  { h with up := fun f => h.up f && !cleared f }

def Flags.turn (h : Flags) (env : Env) : Flags :=
  { h.clear (env h.clock).cleared with clock := h.clock + 1 }

/-- `Arc::new(AtomicBool::new(true))`. -/
def Flags.alloc (h : Flags) : Flags :=
  { h with up := update h.up h.next true, next := h.next + 1 }

structure PeerSession (SocketAddr : Type) where
  redial : Option SocketAddr
  alive : Nat
  state : PeerState

variable {SocketAddr : Type}

namespace PeerSession

/-- The only state-change path. Illegal transitions panic. -/
def transition (p : PeerSession SocketAddr) (next : PeerState) (h : Flags) :
    Option (PeerSession SocketAddr × Flags) :=
  if p.state.canBecome next then
    some ({ p with state := next },
      if next = .suspect then { h with up := update h.up p.alive false } else h)
  else none

def becomeSuspect (p : PeerSession SocketAddr) := p.transition .suspect

def becomeLive (p : PeerSession SocketAddr) := p.transition .live

def becomeDead (p : PeerSession SocketAddr) := p.transition .dead

/-- The transport of a fresh session, under the same address. -/
def replaceWith (p fresh : PeerSession SocketAddr) : Flags →
    Option (PeerSession SocketAddr × Flags) :=
  ({ p with alive := fresh.alive }).becomeLive

/-- What both phases of a send do first. -/
def check (p : PeerSession SocketAddr) (h : Flags) : Option (PeerSession SocketAddr × Flags) :=
  if !h.up p.alive && p.state == .live then p.becomeSuspect h else some (p, h)

/-- What phase 1 does when a redial fails: the entry becomes a tombstone. -/
def giveUp (p : PeerSession SocketAddr) (h : Flags) : Option (PeerSession SocketAddr × Flags) :=
  if p.state = .suspect then p.becomeDead h else some (p, h)

end PeerSession

def dialedSession (addr : SocketAddr) (h : Flags) : PeerSession SocketAddr × Flags :=
  (⟨some addr, h.next, .live⟩, h.alloc)

def redialOnce (answer : Except String Unit) (addr : SocketAddr) (h : Flags) :
    Except String (PeerSession SocketAddr × Flags) :=
  match answer with
  | .ok () => .ok (dialedSession addr h)
  | .error e => .error e

/-! ## Sending -/

/-- Phase 1 on one session; none of it is left if it is reaped. -/
def heal (t : Turn) (p : PeerSession SocketAddr) (lastErr : Option String) (h : Flags) :
    Option (Option (PeerSession SocketAddr) × Option String × Flags) := do
  let (p, h) ← p.check h
  if p.state = .live then some (some p, lastErr, h)
  else
    match p.redial with
    | some addr =>
      match redialOnce t.redial addr h with
      | .ok (fresh, h) => do
        let (p, h) ← p.replaceWith fresh h
        some (some p, lastErr, h)
      | .error e => do
        let (p, h) ← p.giveUp h
        some (some p, some e, h)
    | none => do
      let (_, h) ← p.becomeDead h
      some (none, lastErr, h)

/-- Phase 1: demote the sessions whose reader has seen them die, and redial or reap them. -/
def demote (env : Env) : List (PeerSession SocketAddr) → Option String → Flags →
    Option (List (PeerSession SocketAddr) × Option String × Flags)
  | [], lastErr, h => some ([], lastErr, h)
  | p :: rest, lastErr, h => do
    let (kept, lastErr, h') ← heal (env h.clock) p lastErr (h.turn env)
    let (rest, lastErr, h') ← demote env rest lastErr h'
    some (kept.toList ++ rest, lastErr, h')

/-- Phase 2 on one session, and whether it took the frame. -/
def deliver (t : Turn) (p : PeerSession SocketAddr) (lastErr : Option String) (h : Flags) :
    Option (PeerSession SocketAddr × Bool × Option String × Flags) := do
  let (p, h) ← p.check h
  if p.state ≠ .live then some (p, false, lastErr, h)
  else
    match t.write with
    | .ok () => some (p, true, lastErr, h)
    | .error e => do
      let (p, h) ← p.becomeSuspect h
      match p.redial with
      | none => some (p, false, some e, h)
      | some addr =>
        match redialOnce t.redial addr h with
        | .ok (fresh, h) => do
          let (p, h) ← p.replaceWith fresh h
          match t.rewrite with
          | .ok () => some (p, true, some e, h)
          | .error e2 => do
            let (p, h) ← p.becomeSuspect h
            some (p, false, some e2, h)
        | .error e2 => do
          let (p, h) ← p.becomeDead h
          some (p, false, some e2, h)

/-- Phase 2: the live sessions get the frame. The sessions that took it stand for `ok`. -/
def fanOut (env : Env) : List (PeerSession SocketAddr) → Option String → Flags →
    Option (List (PeerSession SocketAddr) × List (PeerSession SocketAddr) × Option String × Flags)
  | [], lastErr, h => some ([], [], lastErr, h)
  | p :: rest, lastErr, h => do
    let (p, took, lastErr, h') ← deliver (env h.clock) p lastErr (h.turn env)
    let (rest, tookRest, lastErr, h') ← fanOut env rest lastErr h'
    some (p :: rest, if took then p :: tookRest else tookRest, lastErr, h')

/-- Why a receive returns no message. -/
inductive NetError where
  | closed
  | io (e : String)
deriving DecidableEq

structure TcpInner (SocketAddr : Type) where
  addr : SocketAddr
  peers : List (PeerSession SocketAddr)
  stop : Bool
  flags : Flags

namespace TcpInner

/-- `bind_at`. -/
def bindAt (addr : SocketAddr) : TcpInner SocketAddr := ⟨addr, [], false, ⟨fun _ => false, 0, 0⟩⟩

def writeAll (env : Env) (s : TcpInner SocketAddr) :
    Option (Except NetError Unit × TcpInner SocketAddr) :=
  if s.stop then some (.error .closed, s)
  else if s.peers.isEmpty then some (.ok (), s)
  else do
    let (peers, lastErr, flags) ← demote env s.peers none s.flags
    if peers.isEmpty then some (.ok (), { s with peers, flags })
    else do
      let (peers, took, lastErr, flags) ← fanOut env peers lastErr flags
      if took.length = 0 then
        some (.error (.io (lastErr.getD "all peer writes failed")), { s with peers, flags })
      else some (.ok (), { s with peers, flags })

/-- Dial one peer; the own address is not dialed. -/
def connectPeer [DecidableEq SocketAddr] (s : TcpInner SocketAddr) (addr : SocketAddr)
    (answer : Except String Unit) : Except NetError Unit × TcpInner SocketAddr :=
  if addr = s.addr then (.ok (), s)
  else
    match redialOnce answer addr s.flags with
    | .error e => (.error (.io e), s)
    | .ok (session, flags) => (.ok (), { s with peers := s.peers ++ [session], flags })

/-- The listener takes a connection. -/
def accept (s : TcpInner SocketAddr) : TcpInner SocketAddr :=
  { s with peers := s.peers ++ [⟨none, s.flags.next, .live⟩], flags := s.flags.alloc }

end TcpInner

/-- What happens to an endpoint. Between two calls the readers may clear flags too. -/
inductive Op (SocketAddr : Type) where
  | connect (addr : SocketAddr) (answer : Except String Unit)
  | accept
  | clear (cleared : Nat → Bool)
  | send

/-! ## One session -/

section Session

variable {p p' : PeerSession SocketAddr} {h h' : Flags} {t : Turn} {lastErr : Option String}

/-- A session visited: the peer stays the same, and so does the flag of a session that is not
redialed. An accepted session is never dead. -/
structure Kept (p : PeerSession SocketAddr) (h : Flags) (p' : PeerSession SocketAddr) (h' : Flags) :
    Prop where
  redial : p'.redial = p.redial
  alive : p'.alive = p.alive ∨ p.redial ≠ none ∧ h.next ≤ p'.alive
  bound : p'.alive < h'.next
  accepted : p'.redial = none → p'.state ≠ .dead

/-- Only one of the flags changes, and new ones are added. -/
structure Moved (f : Nat) (h h' : Flags) : Prop where
  clock : h'.clock = h.clock
  next : h.next ≤ h'.next
  others : ∀ g, g ≠ f → g < h.next → h'.up g = h.up g

theorem Moved.refl (f : Nat) (h : Flags) : Moved f h h :=
  ⟨rfl, Nat.le_refl _, fun _ _ _ => rfl⟩

/-- The second of two flags may be a new one. -/
theorem Moved.trans {f f' : Nat} {h₁ h₂ : Flags} (hf : f' = f ∨ h.next ≤ f') (hm : Moved f h h₁)
    (hm' : Moved f' h₁ h₂) : Moved f h h₂ where
  clock := hm'.clock.trans hm.clock
  next := hm.next.trans hm'.next
  others g hg hlt := by
    have hne : g ≠ f' := by
      rcases hf with rfl | hf
      · exact hg
      · omega
    rw [hm'.others g hne (hlt.trans_le hm.next), hm.others g hg hlt]

theorem transition_eq {q : PeerState} (hlegal : p.state.canBecome q = true) :
    ∃ h', p.transition q h = some ({ p with state := q }, h') ∧ Moved p.alive h h' ∧
      h'.next = h.next := by
  unfold PeerSession.transition
  rw [if_pos hlegal]
  refine ⟨_, rfl, ?_⟩
  split
  · refine ⟨⟨rfl, Nat.le_refl _, fun f hf _ => ?_⟩, rfl⟩
    exact update_of_ne hf ..
  · exact ⟨.refl _ h, rfl⟩

/-- A session that is replaced has the flag of the fresh one. -/
theorem replaceWith_eq (addr : SocketAddr) (hstate : p.state.canBecome .live = true) :
    ∃ h', p.replaceWith (dialedSession addr h).1 (dialedSession addr h).2 =
        some (⟨p.redial, h.next, .live⟩, h') ∧ Moved p.alive h h' ∧ h'.next = h.next + 1 := by
  refine ⟨h.alloc, if_pos hstate, ⟨rfl, Nat.le_succ _, fun f _ hf => ?_⟩, rfl⟩
  exact update_of_ne (by omega) ..

/-- The check leaves a session that is live and whose flag is up, or one that is not live. -/
theorem check_spec (p : PeerSession SocketAddr) (h : Flags) :
    ∃ p' h', p.check h = some (p', h') ∧ Moved p.alive h h' ∧ h'.next = h.next ∧
      (p' = p ∧ p.state = .live ∧ h.up p.alive = true ∨
        p' = { p with state := p'.state } ∧ p'.state ≠ .live ∧
          (p'.state = .dead → p.state = .dead) ∧ ¬ (p.state = .live ∧ h.up p.alive = true)) := by
  unfold PeerSession.check
  split
  · next hdown =>
    rw [Bool.and_eq_true, beq_iff_eq] at hdown
    obtain ⟨hflag, hlive⟩ := hdown
    obtain ⟨h', htransition, hmoved, hnext⟩ :=
      transition_eq (h := h) (p := p) (q := .suspect) (by rw [hlive]; rfl)
    refine ⟨_, h', htransition, hmoved, hnext, .inr ⟨rfl, nofun, nofun, ?_⟩⟩
    rintro ⟨-, hup⟩
    rw [hup] at hflag
    cases hflag
  · next hcheck =>
    refine ⟨p, h, rfl, .refl _ h, rfl, ?_⟩
    by_cases hlive : p.state = .live
    · refine .inl ⟨rfl, hlive, ?_⟩
      by_contra hdown
      refine hcheck ?_
      rw [hlive, Bool.eq_false_of_not_eq_true hdown]
      rfl
    · exact .inr ⟨rfl, hlive, id, fun hboth => hlive hboth.1⟩

theorem giveUp_spec (p : PeerSession SocketAddr) (h : Flags) :
    ∃ p' h', p.giveUp h = some (p', h') ∧ Moved p.alive h h' ∧ h'.next = h.next ∧
      p'.redial = p.redial ∧ p'.alive = p.alive := by
  unfold PeerSession.giveUp
  split
  · next hs =>
    obtain ⟨h', htransition, hmoved, hnext⟩ :=
      transition_eq (p := p) (h := h) (q := .dead) (by rw [hs]; rfl)
    exact ⟨_, h', htransition, hmoved, hnext, rfl, rfl⟩
  · exact ⟨p, h, rfl, .refl _ h, rfl, rfl, rfl⟩

/-- The check finds the session dead. -/
def FoundDead (p : PeerSession SocketAddr) (h : Flags) : Prop :=
  ¬ (p.state = .live ∧ h.up p.alive = true)

/-- Phase 1 reaps an accepted session that is found dead, and no other. -/
theorem heal_spec (t : Turn) (lastErr : Option String) (hbound : p.alive < h.next)
    (haccepted : p.redial = none → p.state ≠ .dead) :
    ∃ kept lastErr' h', heal t p lastErr h = some (kept, lastErr', h') ∧ Moved p.alive h h' ∧
      (kept = none ∧ p.redial = none ∧ FoundDead p h ∨
        ∃ p', kept = some p' ∧ Kept p h p' h' ∧ (p.redial = none → ¬ FoundDead p h)) := by
  obtain ⟨p', h₁, hcheck, hmoved, hnext, hp⟩ := check_spec p h
  unfold heal
  rw [hcheck, Option.bind_eq_bind, Option.bind_some]
  dsimp only
  rcases hp with ⟨rfl, hlive, hup⟩ | ⟨hp, hstate, hdead, hfound⟩
  · rw [if_pos hlive]
    refine ⟨_, _, _, rfl, hmoved, .inr ⟨p', rfl, ⟨rfl, .inl rfl, by omega, ?_⟩, ?_⟩⟩
    · rw [hlive]
      nofun
    · exact fun _ hnot => hnot ⟨hlive, hup⟩
  · have halive : p'.alive = p.alive := by rw [hp]
    have hredial : p'.redial = p.redial := by rw [hp]
    rw [if_neg hstate]
    cases hr : p'.redial with
    | none =>
      have hsuspect : p'.state.canBecome .dead = true := by
        have hnot : p'.state ≠ .dead := fun hd => haccepted (hredial ▸ hr) (hdead hd)
        cases hs : p'.state with
        | live => exact absurd hs hstate
        | suspect => rfl
        | dead => exact absurd hs hnot
      obtain ⟨h₂, htransition, hmoved', -⟩ := transition_eq (h := h₁) hsuspect
      dsimp only
      rw [PeerSession.becomeDead, htransition]
      exact ⟨none, lastErr, h₂, rfl, .trans (.inl halive) hmoved hmoved',
        .inl ⟨rfl, hredial ▸ hr, hfound⟩⟩
    | some addr =>
      have hnone : p.redial ≠ none := by
        rw [← hredial, hr]
        nofun
      dsimp only
      cases hanswer : t.redial with
      | ok u =>
        have hlegal : p'.state.canBecome .live = true := by
          cases hs : p'.state with
          | live => exact absurd hs hstate
          | suspect => rfl
          | dead => rfl
        obtain ⟨h₂, hreplace, hmoved', hnext'⟩ :=
          replaceWith_eq (h := h₁) addr hlegal
        simp only [redialOnce, hreplace, Option.bind_some]
        refine ⟨_, _, _, rfl, .trans (.inl halive) hmoved hmoved', .inr ⟨_, rfl, ?_, ?_⟩⟩
        · exact ⟨hredial, .inr ⟨hnone, hnext.ge⟩, by show h₁.next < _; omega, fun _ => nofun⟩
        · exact fun hn => absurd hn hnone
      | error e =>
        obtain ⟨p'', h₂, hdied, hmoved', hnext', hredial', halive'⟩ := giveUp_spec p' h₁
        simp only [redialOnce, hdied, Option.bind_some]
        refine ⟨_, _, _, rfl, .trans (.inl halive) hmoved hmoved', .inr ⟨_, rfl, ?_, ?_⟩⟩
        · refine ⟨hredial'.trans hredial, .inl (halive'.trans halive), by omega, fun hn => ?_⟩
          exact absurd ((hredial'.trans hredial).symm.trans hn) hnone
        · exact fun hn => absurd hn hnone

/-- The environment lets the frame through: the write succeeds, or the address of a dialed session
answers and the second write succeeds. -/
def Turn.Writes (t : Turn) (p : PeerSession SocketAddr) : Prop :=
  t.write = .ok () ∨ p.redial ≠ none ∧ t.redial = .ok () ∧ t.rewrite = .ok ()

/-- Phase 2 keeps every session. It writes to those that are not found dead, and their frame is
taken if the environment lets it through. -/
theorem deliver_spec (t : Turn) (lastErr : Option String) (hbound : p.alive < h.next)
    (haccepted : p.redial = none → p.state ≠ .dead) :
    ∃ p' took lastErr' h', deliver t p lastErr h = some (p', took, lastErr', h') ∧
      Moved p.alive h h' ∧ Kept p h p' h' ∧ (took = true ↔ ¬ FoundDead p h ∧ t.Writes p) := by
  obtain ⟨p', h₁, hcheck, hmoved, hnext, hp⟩ := check_spec p h
  unfold deliver
  rw [hcheck, Option.bind_eq_bind, Option.bind_some]
  dsimp only
  rcases hp with ⟨rfl, hlive, hup⟩ | ⟨hp, hstate, hdead, hfound⟩
  · have hnotDead : ¬ FoundDead p' h := fun hdead => hdead ⟨hlive, hup⟩
    obtain ⟨redial, f, state⟩ := p'
    obtain rfl : state = .live := hlive
    have hbound : f < h.next := hbound
    rw [if_neg (not_not.mpr rfl)]
    cases hwrite : t.write with
    | ok u =>
      exact ⟨_, _, _, _, rfl, hmoved, ⟨rfl, .inl rfl, by show f < _; omega, fun _ => nofun⟩,
        iff_of_true rfl ⟨hnotDead, .inl hwrite⟩⟩
    | error e =>
      -- An accepted session stays suspect after a failed write, a dialed one redials once.
      have hfirst : t.write ≠ .ok () := by
        rw [hwrite]
        nofun
      obtain ⟨h₂, hsuspect, hmoved₂, hnext₂⟩ :=
        transition_eq (p := ⟨redial, f, .live⟩) (h := h₁) (q := .suspect) rfl
      have hmoved₂ := Moved.trans (.inl rfl) hmoved hmoved₂
      dsimp only
      rw [PeerSession.becomeSuspect, hsuspect, Option.bind_some]
      cases redial with
      | none =>
        refine ⟨_, _, _, _, rfl, hmoved₂, ⟨rfl, .inl rfl, ?_, fun _ => nofun⟩,
          iff_of_false Bool.false_ne_true fun htaken => ?_⟩
        · show f < h₂.next
          omega
        · exact htaken.2.elim hfirst fun hagain => hagain.1 rfl
      | some addr =>
        dsimp only
        cases hdial : t.redial with
        | ok u =>
          obtain ⟨h₃, hreplace, hmoved₃, hnext₃⟩ :=
            replaceWith_eq (p := ⟨some addr, f, .suspect⟩) (h := h₂) addr rfl
          have hmoved₃ := Moved.trans (.inl rfl) hmoved₂ hmoved₃
          have hfresh : h.next ≤ h₂.next := hmoved₂.next
          simp only [redialOnce, hreplace, Option.bind_some]
          cases hrewrite : t.rewrite with
          | ok u =>
            refine ⟨_, _, _, _, rfl, hmoved₃, ⟨rfl, .inr ⟨nofun, hfresh⟩, ?_, fun _ => nofun⟩,
              iff_of_true rfl ⟨hnotDead, .inr ⟨nofun, hdial, hrewrite⟩⟩⟩
            show h₂.next < h₃.next
            omega
          | error e2 =>
            obtain ⟨h₄, hsuspect₄, hmoved₄, hnext₄⟩ :=
              transition_eq (p := ⟨some addr, h₂.next, .live⟩) (h := h₃) (q := .suspect) rfl
            dsimp only
            rw [PeerSession.becomeSuspect, hsuspect₄]
            refine ⟨_, _, _, _, rfl, .trans (.inr hfresh) hmoved₃ hmoved₄,
              ⟨rfl, .inr ⟨nofun, hfresh⟩, ?_, fun _ => nofun⟩,
              iff_of_false Bool.false_ne_true fun htaken => htaken.2.elim hfirst fun hagain => ?_⟩
            · show h₂.next < h₄.next
              omega
            · cases hrewrite.symm.trans hagain.2.2
        | error e2 =>
          obtain ⟨h₃, hdied, hmoved₃, hnext₃⟩ :=
            transition_eq (p := ⟨some addr, f, .suspect⟩) (h := h₂) (q := .dead) rfl
          simp only [redialOnce]
          rw [PeerSession.becomeDead, hdied]
          refine ⟨_, _, _, _, rfl, .trans (.inl rfl) hmoved₂ hmoved₃,
            ⟨rfl, .inl rfl, ?_, nofun⟩,
            iff_of_false Bool.false_ne_true fun htaken => htaken.2.elim hfirst fun hagain => ?_⟩
          · show f < h₃.next
            omega
          · cases hdial.symm.trans hagain.2.1
  · rw [if_pos hstate]
    have halive : p'.alive = p.alive := by rw [hp]
    have hredial : p'.redial = p.redial := by rw [hp]
    refine ⟨_, _, _, _, rfl, hmoved, ⟨hredial, .inl halive, by omega, fun hn hd => ?_⟩,
      iff_of_false Bool.false_ne_true fun htaken => htaken.1 hfound⟩
    exact haccepted (hredial ▸ hn) (hdead hd)

end Session

/-! ## All sessions -/

section Sessions

variable {peers peers' rest rest' : List (PeerSession SocketAddr)} {p : PeerSession SocketAddr}
  {h h₁ h' : Flags} {env : Env}

/-- Sessions have flags of their own, and an accepted one is not dead. -/
structure Sound (peers : List (PeerSession SocketAddr)) (h : Flags) : Prop where
  nodup : (peers.map PeerSession.alive).Nodup
  bound : ∀ p ∈ peers, p.alive < h.next
  accepted : ∀ p ∈ peers, p.redial = none → p.state ≠ .dead

/-- What the sessions have become: those that are left have their old flags or new ones, and no
address to redial is lost. -/
structure KeptAll (peers : List (PeerSession SocketAddr)) (h : Flags)
    (peers' : List (PeerSession SocketAddr)) (h' : Flags) : Prop where
  sound : Sound peers' h'
  next : h.next ≤ h'.next
  origin : ∀ p' ∈ peers', (∃ p ∈ peers, p'.alive = p.alive) ∨ h.next ≤ p'.alive
  dialed : ∀ p ∈ peers, ∀ addr, p.redial = some addr → ∃ p' ∈ peers', p'.redial = some addr

theorem KeptAll.trans (hk : KeptAll peers h peers' h₁) {peers₂ : List (PeerSession SocketAddr)}
    (hk' : KeptAll peers' h₁ peers₂ h') : KeptAll peers h peers₂ h' where
  sound := hk'.sound
  next := hk.next.trans hk'.next
  origin p₂ hp₂ := by
    rcases hk'.origin p₂ hp₂ with ⟨p', hp', heq⟩ | hnew
    · rw [heq]
      exact hk.origin p' hp'
    · exact .inr (hk.next.trans hnew)
  dialed p hp addr haddr := by
    obtain ⟨p', hp', haddr'⟩ := hk.dialed p hp addr haddr
    exact hk'.dialed p' hp' addr haddr'

/-- The flag of a session that has left is not used again. -/
theorem KeptAll.gone (hk : KeptAll peers h peers' h') {f : Nat} (hf : f < h.next)
    (hgone : ∀ p ∈ peers, p.alive ≠ f) : ∀ p' ∈ peers', p'.alive ≠ f := by
  intro p' hp' heq
  rcases hk.origin p' hp' with ⟨p, hp, halive⟩ | hnew
  · exact hgone p hp (halive ▸ heq)
  · omega

theorem Sound.tail (hs : Sound (p :: rest) h) (hnext : h.next ≤ h'.next) : Sound rest h' where
  nodup := (List.nodup_cons.mp hs.nodup).2
  bound q hq := (hs.bound q (List.mem_cons_of_mem p hq)).trans_le hnext
  accepted q hq := hs.accepted q (List.mem_cons_of_mem p hq)

theorem Sound.alive_ne (hs : Sound (p :: rest) h) {q : PeerSession SocketAddr} (hq : q ∈ rest) :
    q.alive ≠ p.alive := fun heq =>
  (List.nodup_cons.mp hs.nodup).1 (heq ▸ List.mem_map_of_mem hq)

/-- The flag of the session that is visited stays apart from those of the others. -/
theorem Sound.cons {p' : PeerSession SocketAddr} (hs : Sound (p :: rest) h) (hp' : Kept p h p' h₁)
    (hk : KeptAll rest h₁ rest' h') : Sound (p' :: rest') h' where
  nodup := by
    refine List.nodup_cons.mpr ⟨?_, hk.sound.nodup⟩
    rw [List.mem_map]
    rintro ⟨q, hq, heq⟩
    -- Flags of the others are old ones of theirs or newer than all of this turn.
    have hbound := hs.bound p List.mem_cons_self
    rcases hk.origin q hq with ⟨q', hq', heq'⟩ | hnew
    · have hne := hs.alive_ne hq'
      have hlt := hs.bound q' (List.mem_cons_of_mem p hq')
      rcases hp'.alive with hold | ⟨-, hfresh⟩
      · exact hne (by rw [← heq', heq, hold])
      · omega
    · have hlt := hp'.bound
      omega
  bound q hq := by
    rcases List.mem_cons.mp hq with rfl | hq
    · exact hp'.bound.trans_le hk.next
    · exact hk.sound.bound q hq
  accepted q hq := by
    rcases List.mem_cons.mp hq with rfl | hq
    · exact hp'.accepted
    · exact hk.sound.accepted q hq

/-- One session is visited, and then the others. -/
theorem KeptAll.cons {kept : Option (PeerSession SocketAddr)} (hs : Sound (p :: rest) h)
    (hnext : h.next ≤ h₁.next)
    (hkept : kept = none ∧ p.redial = none ∨ ∃ p', kept = some p' ∧ Kept p h p' h₁)
    (hk : KeptAll rest h₁ rest' h') : KeptAll (p :: rest) h (kept.toList ++ rest') h' := by
  have horigin : ∀ q ∈ rest', (∃ p' ∈ p :: rest, q.alive = p'.alive) ∨ h.next ≤ q.alive := by
    intro q hq
    rcases hk.origin q hq with ⟨p', hp', heq⟩ | hnew
    · exact .inl ⟨p', List.mem_cons_of_mem p hp', heq⟩
    · exact .inr (hnext.trans hnew)
  rcases hkept with ⟨rfl, hnone⟩ | ⟨p', rfl, hp'⟩
  · refine ⟨hk.sound, hnext.trans hk.next, horigin, fun q hq addr haddr => ?_⟩
    rcases List.mem_cons.mp hq with rfl | hq
    · rw [hnone] at haddr
      cases haddr
    · exact hk.dialed q hq addr haddr
  · show KeptAll (p :: rest) h (p' :: rest') h'
    refine ⟨hs.cons hp' hk, hnext.trans hk.next, ?_, ?_⟩
    · intro q hq
      rcases List.mem_cons.mp hq with rfl | hq
      · rcases hp'.alive with hold | ⟨-, hfresh⟩
        · exact .inl ⟨p, List.mem_cons_self, hold⟩
        · exact .inr hfresh
      · exact horigin q hq
    · intro q hq addr haddr
      rcases List.mem_cons.mp hq with rfl | hq
      · exact ⟨p', List.mem_cons_self, hp'.redial.trans haddr⟩
      · obtain ⟨q', hq', haddr'⟩ := hk.dialed q hq addr haddr
        exact ⟨q', List.mem_cons_of_mem p' hq', haddr'⟩

/-- The check of the session at this place finds it dead: it was not live at the start of the send,
its flag was down, or one of the turns up to its own cleared the flag. -/
def SeenDead (env : Env) (h : Flags) (i : Nat) (p : PeerSession SocketAddr) : Prop :=
  p.state ≠ .live ∨ h.up p.alive = false ∨ ∃ j ≤ i, (env (h.clock + j)).cleared p.alive = true

theorem turn_up {f : Nat} :
    (h.turn env).up f = true ↔ h.up f = true ∧ (env h.clock).cleared f = false := by
  show (h.up f && !(env h.clock).cleared f) = true ↔ _
  rw [Bool.and_eq_true, Bool.not_eq_true']

/-- A session is seen dead at its turn if the check finds it dead. -/
theorem seenDead_zero : SeenDead env h 0 p ↔ FoundDead p (h.turn env) := by
  have hcleared : (∃ j ≤ 0, (env (h.clock + j)).cleared p.alive = true) ↔
      (env h.clock).cleared p.alive = true := by
    simp only [Nat.le_zero, exists_eq_left, Nat.add_zero]
  rw [SeenDead, FoundDead, turn_up, hcleared, not_and_or, not_and_or, Bool.not_eq_true,
    Bool.not_eq_false]

/-- The turn of another session changes nothing about it. -/
theorem seenDead_succ {f i : Nat} (hmoved : Moved f (h.turn env) h₁) (hne : p.alive ≠ f)
    (hlt : p.alive < h.next) : SeenDead env h (i + 1) p ↔ SeenDead env h₁ i p := by
  have hup : h₁.up p.alive = true ↔
      h.up p.alive = true ∧ (env h.clock).cleared p.alive = false := by
    rw [hmoved.others p.alive hne hlt, turn_up]
  have hclock : h₁.clock = h.clock + 1 := hmoved.clock
  have hcleared : (∃ j ≤ i + 1, (env (h.clock + j)).cleared p.alive = true) ↔
      (env h.clock).cleared p.alive = true ∨
        ∃ j ≤ i, (env (h₁.clock + j)).cleared p.alive = true := by
    rw [hclock]
    constructor
    · rintro ⟨_ | j, hj, hc⟩
      · exact .inl hc
      · exact .inr ⟨j, by omega, by rwa [Nat.add_right_comm, Nat.add_assoc]⟩
    · rintro (hc | ⟨j, hj, hc⟩)
      · exact ⟨0, Nat.zero_le _, hc⟩
      · exact ⟨j + 1, by omega, by rwa [Nat.add_right_comm, Nat.add_assoc] at hc⟩
  rw [SeenDead, SeenDead, hcleared, ← Bool.not_eq_true (h₁.up _), hup, not_and_or,
    Bool.not_eq_true, Bool.not_eq_false, or_assoc]

/-- The session at this place takes the frame: it is not seen dead, and the environment lets the
frame through. -/
def Takes (env : Env) (h : Flags) (i : Nat) (p : PeerSession SocketAddr) : Prop :=
  ¬ SeenDead env h i p ∧ (env (h.clock + i)).Writes p

/-- A statement about each session at its place, for the first one and for the others. -/
theorem forall_getElem?_cons {P : Nat → PeerSession SocketAddr → Prop} :
    (∀ i q, (p :: rest)[i]? = some q → P i q) ↔
      P 0 p ∧ ∀ i q, rest[i]? = some q → P (i + 1) q := by
  constructor
  · exact fun hall => ⟨hall 0 p rfl, fun i q hq => hall (i + 1) q hq⟩
  · rintro ⟨hzero, hsucc⟩ (_ | i) q hq
    · cases hq
      exact hzero
    · exact hsucc i q hq

variable (env) in
/-- The first phase reaps the accepted sessions that it sees dead, and only those. -/
theorem demote_spec (hs : Sound peers h) (lastErr : Option String) :
    ∃ peers' lastErr' h', demote env peers lastErr h = some (peers', lastErr', h') ∧
      KeptAll peers h peers' h' ∧
      (∀ i p, peers[i]? = some p → p.redial = none → SeenDead env h i p →
        ∀ p' ∈ peers', p'.alive ≠ p.alive) ∧
      (peers' = [] ↔ ∀ i p, peers[i]? = some p → p.redial = none ∧ SeenDead env h i p) := by
  induction peers generalizing h lastErr with
  | nil =>
    refine ⟨[], lastErr, h, rfl, ⟨hs, Nat.le_refl _, fun _ hp => .inl ⟨_, hp, rfl⟩, ?_⟩, ?_,
      iff_of_true rfl fun _ _ hp => by cases hp⟩
    · exact fun _ hp => absurd hp List.not_mem_nil
    · exact fun _ _ _ _ _ _ hp => absurd hp List.not_mem_nil
  | cons p rest ih =>
    have hsturn : Sound (p :: rest) (h.turn env) := ⟨hs.nodup, hs.bound, hs.accepted⟩
    obtain ⟨kept, lastErr₁, h₁, hheal, hmoved, hkept⟩ := heal_spec (env h.clock) lastErr
      (hsturn.bound p List.mem_cons_self) (hsturn.accepted p List.mem_cons_self)
    have hnext : h.next ≤ h₁.next := hmoved.next
    obtain ⟨rest', lastErr', h', hdemote, hk, hreaped, hnil⟩ := ih (hs.tail hnext) lastErr₁
    -- The turn of the first session changes nothing that the checks of the others see.
    have hlater : ∀ i q, rest[i]? = some q →
        (SeenDead env h (i + 1) q ↔ SeenDead env h₁ i q) := by
      intro i q hq
      have hmem := List.mem_of_getElem? hq
      exact seenDead_succ hmoved (hs.alive_ne hmem) (hs.bound q (List.mem_cons_of_mem p hmem))
    refine ⟨kept.toList ++ rest', lastErr', h', ?_, ?_, ?_, ?_⟩
    · rw [demote, hheal, Option.bind_eq_bind, Option.bind_some]
      dsimp only
      rw [hdemote]
      rfl
    · refine KeptAll.cons hs hnext ?_ hk
      rcases hkept with ⟨hnone, haccepted, -⟩ | ⟨p', hp', hkept, -⟩
      · exact .inl ⟨hnone, haccepted⟩
      · exact .inr ⟨p', hp', hkept.redial, hkept.alive, hkept.bound, hkept.accepted⟩
    · intro i q hq hnone hseen
      cases i with
      | zero =>
        obtain rfl : p = q := Option.some.inj hq
        rcases hkept with ⟨rfl, -, -⟩ | ⟨p', -, -, hnot⟩
        · exact hk.gone ((hs.bound p List.mem_cons_self).trans_le hnext) fun q hq => hs.alive_ne hq
        · exact absurd (seenDead_zero.mp hseen) (hnot hnone)
      | succ i =>
        have hq : rest[i]? = some q := hq
        have hmem := List.mem_of_getElem? hq
        have hne := hs.alive_ne hmem
        have hlt := hs.bound q (List.mem_cons_of_mem p hmem)
        have hseen₁ : SeenDead env h₁ i q := (hlater i q hq).mp hseen
        intro p' hp'
        rcases List.mem_append.mp hp' with hp' | hp'
        · rcases hkept with ⟨rfl, -, -⟩ | ⟨p'', rfl, hkept, -⟩
          · exact absurd hp' List.not_mem_nil
          · obtain rfl := List.mem_singleton.mp hp'
            rcases hkept.alive with hold | ⟨-, hfresh⟩
            · exact fun heq => hne (by rw [← heq, hold])
            · have hfresh : h.next ≤ p'.alive := hfresh
              omega
        · exact hreaped i q hq hnone hseen₁ p' hp'
    · rw [List.append_eq_nil_iff, hnil, forall_getElem?_cons, seenDead_zero]
      refine and_congr ?_ (forall₃_congr fun i q hq => by rw [hlater i q hq])
      rcases hkept with ⟨rfl, hnone, hfound⟩ | ⟨p', rfl, -, hnot⟩
      · exact iff_of_true rfl ⟨hnone, hfound⟩
      · exact iff_of_false (List.cons_ne_nil _ _) fun hboth => hnot hboth.1 hboth.2

variable (env) in
/-- The second phase gives the frame to the sessions that can take it. -/
theorem fanOut_spec (hs : Sound peers h) (lastErr : Option String) :
    ∃ peers' took lastErr' h', fanOut env peers lastErr h = some (peers', took, lastErr', h') ∧
      KeptAll peers h peers' h' ∧ (took = [] ↔ ∀ i p, peers[i]? = some p → ¬ Takes env h i p) := by
  induction peers generalizing h lastErr with
  | nil =>
    refine ⟨[], [], lastErr, h, rfl, ⟨hs, Nat.le_refl _, fun _ hp => .inl ⟨_, hp, rfl⟩, ?_⟩,
      iff_of_true rfl fun _ _ hp => by cases hp⟩
    exact fun _ hp => absurd hp List.not_mem_nil
  | cons p rest ih =>
    have hsturn : Sound (p :: rest) (h.turn env) := ⟨hs.nodup, hs.bound, hs.accepted⟩
    obtain ⟨p', took, lastErr₁, h₁, hdeliver, hmoved, hkept, htook⟩ := deliver_spec (env h.clock)
      lastErr (hsturn.bound p List.mem_cons_self) (hsturn.accepted p List.mem_cons_self)
    have hnext : h.next ≤ h₁.next := hmoved.next
    obtain ⟨rest', tookRest, lastErr', h', hfan, hk, hrest⟩ := ih (hs.tail hnext) lastErr₁
    have hlater : ∀ i q, rest[i]? = some q → (Takes env h (i + 1) q ↔ Takes env h₁ i q) := by
      intro i q hq
      have hmem := List.mem_of_getElem? hq
      have hclock : h₁.clock + i = h.clock + (i + 1) := by
        rw [hmoved.clock]
        exact Nat.succ_add_eq_add_succ h.clock i
      rw [Takes, Takes, hclock, seenDead_succ hmoved (hs.alive_ne hmem)
        (hs.bound q (List.mem_cons_of_mem p hmem))]
    have hfirst : Takes env h 0 p ↔ took = true := by
      rw [htook, Takes, seenDead_zero]
      rfl
    have hkept : Kept p h p' h₁ := ⟨hkept.redial, hkept.alive, hkept.bound, hkept.accepted⟩
    refine ⟨p' :: rest', if took then p' :: tookRest else tookRest, lastErr', h', ?_,
      KeptAll.cons hs hnext (.inr ⟨p', rfl, hkept⟩) hk, ?_⟩
    · rw [fanOut, hdeliver, Option.bind_eq_bind, Option.bind_some]
      dsimp only
      rw [hfan]
      rfl
    · rw [forall_getElem?_cons, hfirst,
        ← forall₃_congr fun i q hq => not_congr (hlater i q hq).symm, ← hrest]
      cases took <;> simp

end Sessions

/-! ## Runs -/

section Runs

variable {s : TcpInner SocketAddr} {env : Env}

namespace TcpInner

/-- A running endpoint. -/
structure Inv (s : TcpInner SocketAddr) : Prop where
  running : s.stop = false
  sound : Sound s.peers s.flags

/-- There is an entry with this address to redial. -/
def Knows (s : TcpInner SocketAddr) (addr : SocketAddr) : Prop :=
  ∃ p ∈ s.peers, p.redial = some addr

/-- What a send does: it reaps the accepted sessions that it sees dead, and fails exactly if
sessions are left and none of them takes the frame. The sessions that are left are those that phase
1 has not reaped; whether one takes the frame is up to the environment. -/
structure Sends (env : Env) (s : TcpInner SocketAddr) (result : Except NetError Unit)
    (s' : TcpInner SocketAddr) : Prop where
  reaped : ∀ i p, s.peers[i]? = some p → p.redial = none → SeenDead env s.flags i p →
    ∀ p' ∈ s'.peers, p'.alive ≠ p.alive
  result : ∃ pruned lastErr flags,
    demote env s.peers none s.flags = some (pruned, lastErr, flags) ∧
    (pruned = [] ↔ ∀ i p, s.peers[i]? = some p → p.redial = none ∧ SeenDead env s.flags i p) ∧
    ((∃ e, result = .error e) ↔ pruned ≠ [] ∧
      ∀ i p, pruned[i]? = some p → ¬ Takes env flags i p)

theorem Inv.push (h : s.Inv) {redial : Option SocketAddr} :
    Inv { s with
      peers := s.peers ++ [⟨redial, s.flags.next, .live⟩]
      flags := s.flags.alloc } where
  running := h.running
  sound := by
    refine ⟨?_, fun p hp => ?_, fun p hp => ?_⟩
    · rw [List.map_append, List.nodup_append]
      refine ⟨h.sound.nodup, List.nodup_singleton _, fun f hf g hg heq => ?_⟩
      obtain ⟨p, hp, rfl⟩ := List.mem_map.mp hf
      have hlt := h.sound.bound p hp
      have hg : g = s.flags.next := List.mem_singleton.mp hg
      omega
    · rcases List.mem_append.mp hp with hp | hp
      · exact (h.sound.bound p hp).trans (Nat.lt_succ_self _)
      · rw [List.mem_singleton.mp hp]
        exact Nat.lt_succ_self _
    · rcases List.mem_append.mp hp with hp | hp
      · exact h.sound.accepted p hp
      · rw [List.mem_singleton.mp hp]
        exact fun _ => nofun

variable (env) in
/-- No transition of a send is illegal, and no address is lost. -/
theorem Inv.writeAll (h : s.Inv) : ∃ result s', s.writeAll env = some (result, s') ∧ s'.Inv ∧
    s'.addr = s.addr ∧ (∀ addr, s.Knows addr → s'.Knows addr) ∧ Sends env s result s' := by
  obtain ⟨pruned, lastErr, flags, hdemote, hk, hreaped, hnil⟩ := demote_spec env h.sound none
  obtain ⟨peers, took, lastErr', flags', hfan, hk', htook⟩ := fanOut_spec env hk.sound lastErr
  have hall := hk.trans hk'
  have hreaped' : ∀ i p, s.peers[i]? = some p → p.redial = none → SeenDead env s.flags i p →
      ∀ p' ∈ peers, p'.alive ≠ p.alive := by
    intro i p hp hnone hseen
    have hbound := h.sound.bound p (List.mem_of_getElem? hp)
    exact hk'.gone (hbound.trans_le hk.next) (hreaped i p hp hnone hseen)
  have hresult {result : Except NetError Unit}
      (hiff : (∃ e, result = .error e) ↔ pruned ≠ [] ∧ took = []) :
      ∃ pruned lastErr flags,
        demote env s.peers none s.flags = some (pruned, lastErr, flags) ∧
        (pruned = [] ↔ ∀ i p, s.peers[i]? = some p → p.redial = none ∧ SeenDead env s.flags i p) ∧
        ((∃ e, result = .error e) ↔ pruned ≠ [] ∧
          ∀ i p, pruned[i]? = some p → ¬ Takes env flags i p) :=
    ⟨pruned, lastErr, flags, hdemote, hnil, hiff.trans (and_congr_right fun _ => htook)⟩
  unfold TcpInner.writeAll
  rw [h.running, if_neg Bool.false_ne_true]
  split
  · next hempty =>
    rw [List.isEmpty_iff] at hempty
    have hnone : pruned = [] := by
      rw [hempty] at hdemote
      cases hdemote
      rfl
    refine ⟨_, s, rfl, h, rfl, fun _ => id, ⟨fun i p hp => ?_, hresult ?_⟩⟩
    · rw [hempty] at hp
      cases hp
    · exact iff_of_false nofun fun hboth => hboth.1 hnone
  · rw [hdemote, Option.bind_eq_bind, Option.bind_some]
    dsimp only
    split
    · next hempty =>
      rw [List.isEmpty_iff] at hempty
      refine ⟨_, _, rfl, ⟨rfl, hk.sound⟩, rfl, fun addr ⟨p, hp, haddr⟩ => ?_,
        ⟨hreaped, hresult ?_⟩⟩
      · exact hk.dialed p hp addr haddr
      · exact iff_of_false nofun fun hboth => hboth.1 hempty
    · next hleft =>
      rw [List.isEmpty_iff] at hleft
      have hknows : ∀ addr, s.Knows addr → ∃ p ∈ peers, p.redial = some addr :=
        fun addr ⟨p, hp, haddr⟩ => hall.dialed p hp addr haddr
      rw [hfan, Option.bind_eq_bind, Option.bind_some]
      dsimp only
      split
      · next hzero =>
        refine ⟨_, _, rfl, ⟨rfl, hall.sound⟩, rfl, hknows, ⟨hreaped', hresult ?_⟩⟩
        exact iff_of_true ⟨_, rfl⟩ ⟨hleft, List.eq_nil_of_length_eq_zero hzero⟩
      · next hsome =>
        refine ⟨_, _, rfl, ⟨rfl, hall.sound⟩, rfl, hknows, ⟨hreaped', hresult ?_⟩⟩
        exact iff_of_false nofun fun hboth => hsome (by rw [hboth.2]; rfl)

theorem inv_bindAt (addr : SocketAddr) : (bindAt addr).Inv where
  running := rfl
  sound := ⟨List.nodup_nil, fun _ hp => absurd hp List.not_mem_nil,
    fun _ hp => absurd hp List.not_mem_nil⟩

variable [DecidableEq SocketAddr]

def step (env : Env) (s : TcpInner SocketAddr) : Op SocketAddr → Option (TcpInner SocketAddr)
  | .connect addr answer => some (s.connectPeer addr answer).2
  | .accept => some s.accept
  | .clear cleared => some { s with flags := s.flags.clear cleared }
  | .send => (s.writeAll env).map Prod.snd

def run (env : Env) (s : TcpInner SocketAddr) (ops : List (Op SocketAddr)) :
    Option (TcpInner SocketAddr) :=
  ops.foldlM (step env) s

end TcpInner

variable [DecidableEq SocketAddr]

/-- The address that an operation dials: another one than the own, that answers. -/
def Op.dials (own : SocketAddr) : Op SocketAddr → Option SocketAddr
  | .connect addr (.ok ()) => if addr = own then none else some addr
  | _ => none

variable (env) in
/-- No step fails, and it keeps the addresses that are known and adds the one that it dials. -/
theorem TcpInner.Inv.step (h : s.Inv) (op : Op SocketAddr) :
    ∃ s', s.step env op = some s' ∧ s'.Inv ∧ s'.addr = s.addr ∧
      (∀ addr, s.Knows addr → s'.Knows addr) ∧ ∀ addr ∈ op.dials s.addr, s'.Knows addr := by
  have hpush (redial : Option SocketAddr) (addr : SocketAddr) :
      s.Knows addr → TcpInner.Knows { s with
        peers := s.peers ++ [⟨redial, s.flags.next, .live⟩]
        flags := s.flags.alloc } addr :=
    fun ⟨p, hp, haddr⟩ => ⟨p, List.mem_append_left _ hp, haddr⟩
  cases op with
  | connect addr answer =>
    dsimp only [TcpInner.step, TcpInner.connectPeer, Op.dials]
    by_cases hown : addr = s.addr
    · rw [if_pos hown]
      refine ⟨s, rfl, h, rfl, fun _ => id, fun a ha => ?_⟩
      split at ha
      · next heq =>
        cases heq
        rw [if_pos hown] at ha
        cases ha
      · cases ha
    · rw [if_neg hown]
      cases answer with
      | error e => exact ⟨s, rfl, h, rfl, fun _ => id, nofun⟩
      | ok u =>
        refine ⟨_, rfl, h.push, rfl, hpush (some addr), fun a ha => ?_⟩
        dsimp only at ha
        rw [if_neg hown] at ha
        cases ha
        exact ⟨_, List.mem_append_right _ (List.mem_singleton_self _), rfl⟩
  | accept => exact ⟨_, rfl, h.push, rfl, hpush none, nofun⟩
  | clear cleared =>
    refine ⟨_, rfl, ⟨h.running, ?_⟩, rfl, fun _ => id, nofun⟩
    exact ⟨h.sound.nodup, h.sound.bound, h.sound.accepted⟩
  | send =>
    obtain ⟨result, s', hwrite, hinv, haddr, hknows, -⟩ := h.writeAll env
    refine ⟨s', ?_, hinv, haddr, hknows, nofun⟩
    rw [TcpInner.step, hwrite]
    rfl

variable (env) in
theorem TcpInner.Inv.run (h : s.Inv) (ops : List (Op SocketAddr)) :
    ∃ s', s.run env ops = some s' ∧ s'.Inv ∧ (∀ addr, s.Knows addr → s'.Knows addr) ∧
      ∀ addr ∈ ops.filterMap (Op.dials s.addr), s'.Knows addr := by
  induction ops generalizing s with
  | nil => exact ⟨s, rfl, h, fun _ => id, fun _ hmem => absurd hmem List.not_mem_nil⟩
  | cons op ops ih =>
    obtain ⟨s₁, hstep, hinv, haddr, hknows, hdials⟩ := h.step env op
    obtain ⟨s', hrun, hinv', hknows', hdials'⟩ := ih hinv
    refine ⟨s', ?_, hinv', fun addr hk => hknows' addr (hknows addr hk), fun addr hmem => ?_⟩
    · rw [TcpInner.run, List.foldlM_cons, hstep]
      exact hrun
    · rw [haddr] at hdials'
      obtain ⟨op', hop', hd⟩ := List.mem_filterMap.mp hmem
      rcases List.mem_cons.mp hop' with rfl | hop'
      · exact hknows' addr (hdials addr hd)
      · exact hdials' addr (List.mem_filterMap.mpr ⟨op', hop', hd⟩)

/-- After any operations, whatever the environment answers: there was no illegal transition, every
address that was dialed is known, and the next send does what it should. -/
theorem peers_safe (env : Env) (own : SocketAddr) (ops : List (Op SocketAddr)) :
    ∃ s, (TcpInner.bindAt own).run env ops = some s ∧
      (∀ addr ∈ ops.filterMap (Op.dials own), s.Knows addr) ∧
      ∃ result s', s.writeAll env = some (result, s') ∧ TcpInner.Sends env s result s' := by
  obtain ⟨s, hrun, hinv, -, hdials⟩ := (TcpInner.inv_bindAt own).run env ops
  obtain ⟨result, s', hwrite, -, -, -, hsends⟩ := hinv.writeAll env
  exact ⟨s, hrun, hdials, result, s', hwrite, hsends⟩

end Runs

end P2P333.Transfer333.Tcp
