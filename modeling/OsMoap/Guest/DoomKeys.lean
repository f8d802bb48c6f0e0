import OsMoap.Guest.DoomInput
import OsMoap.Lib.Machine
import OsMoap.Lib.Ring
import Mathlib.Data.BitVec
import Mathlib.Data.List.Nodup
import Mathlib.Data.List.Perm.Basic

/-!
# Doom's Key Events

`ev_push`, `key_touch` and `DG_GetKey` of `guest/pkgs/doom/doomgeneric_osmoap.c`.  Presses go
through a ring of 64 slots; a table of at most 16 keys says which keys are held and when they were
last touched, and a key that has not been touched for `g_hold_ms` is released.

The invariant (`KeysInv`) links the two: a queued key is held, and the game sees a key down when
it is held and not queued.  So the ring holds at most 16 of its 63 (`KeysInv.room`), and a release
comes after the press.

A touch is stamped with the clock as `DG_GetKey` read it before it reads the tty, and the tty may
be waited for; the hold runs from there.
-/

namespace OsMoap.Guest

open OsMoap.Lib

/-! ## The held table and the ring -/

/-- An entry of `g_held`. -/
structure Held where
  key : UInt8
  last : BitVec 32

/-- `g_held` up to `g_nheld`, and `g_evq` with its head and tail. -/
structure Keys where
  held : List Held
  evq : ℕ → UInt8
  evh : ℕ
  evt : ℕ

/-- `HELD_MAX`. -/
def heldMax : ℕ := 16

/-- `ev_push`. -/
def evPush (k : UInt8) (s : Keys) : Keys :=
  -- a full ring drops the press without a word
  let nt := (s.evt + 1) &&& 63
  if nt ≠ s.evh then { s with evq := Function.update s.evq s.evt k, evt := nt } else s

/-- The loop of `key_touch`: the table with the key's stamp renewed, if it is there. -/
def renew (k : UInt8) (now : BitVec 32) : List Held → Option (List Held)
  | [] => none
  | h :: hs => if h.key = k then some ({ h with last := now } :: hs) else (renew k now hs).map (h :: ·)

/-- `key_touch`. -/
def keyTouch (k : UInt8) (now : BitVec 32) (s : Keys) : Keys :=
  match renew k now s.held with
  | some held => { s with held := held }
  | none =>
    -- a key beyond the sixteenth is neither held nor pressed
    if s.held.length < heldMax then evPush k { s with held := s.held ++ [⟨k, now⟩] } else s

/-- `g_held[i] = g_held[--g_nheld]`. -/
def swapRemove (i : ℕ) (held : List Held) : List Held :=
  match held.getLast? with
  -- the last entry takes the place of the released one
  | some h => (held.set i h).dropLast
  | none => held

/-- The loop over expired holds: the first one, and the table without it. -/
def releaseExpired (hold now : BitVec 32) (held : List Held) : Option (UInt8 × List Held) :=
  (held.findIdx? fun h => hold < now - h.last).bind fun i =>
    held[i]?.map fun h => (h.key, swapRemove i held)

/-- What `DG_GetKey` returns: pressed or released, and the key. -/
abbrev KeyEvent := Bool × UInt8

/-- `DG_GetKey`; `none` when `^C` ends the program. -/
def dgGetKey (K : KeyCodes) (hold now : BitVec 32) (reads : List Read) (s : Keys) :
    Option (Option KeyEvent × Keys) :=
  match pumpInput K (fun k _ s => keyTouch k now s) reads s with
  -- `^C`: `osd_exit` does not come back
  | (_, .exited) => none
  | (s, .returned) =>
    -- presses first; holds are looked at only when none waits
    if s.evh ≠ s.evt then
      some (some (true, s.evq s.evh), { s with evh := (s.evh + 1) &&& 63 })
    else
      match releaseExpired hold now s.held with
      | some (k, held) => some (some (false, k), { s with held := held })
      | none => some (none, s)

/-- The keys of the table. -/
def Keys.heldKeys (s : Keys) : List UInt8 := s.held.map Held.key

/-- The presses that wait in the ring. -/
def Keys.queue (s : Keys) : List UInt8 := ringList 64 s.evq s.evh s.evt

theorem and_63 (n : ℕ) : n &&& 63 = n % 64 := Nat.and_two_pow_sub_one_eq_mod n 6

theorem renew_eq_none {k : UInt8} {now : BitVec 32} {held : List Held} :
    renew k now held = none ↔ k ∉ held.map Held.key := by
  induction held with
  | nil => simp [renew]
  | cons h hs ih =>
    rw [renew]
    split_ifs with hk
    · simp [hk]
    · simp only [Option.map_eq_none_iff, ih, List.map_cons, List.mem_cons, not_or]
      exact ⟨fun hrest => ⟨fun heq => hk heq.symm, hrest⟩, fun hrest => hrest.2⟩

/-- A renewed table has the same keys, the touched one with a new stamp and the others as they
were. -/
theorem renew_eq_some {k : UInt8} {now : BitVec 32} {held held' : List Held}
    (h : renew k now held = some held') (hnodup : (held.map Held.key).Nodup) :
    held'.map Held.key = held.map Held.key ∧
      ∀ e ∈ held', e = ⟨k, now⟩ ∨ e ∈ held ∧ e.key ≠ k := by
  induction held generalizing held' with
  | nil => cases h
  | cons a hs ih =>
    obtain ⟨hnotin, hrest⟩ := List.nodup_cons.mp hnodup
    rw [renew] at h
    split_ifs at h with hk
    · obtain rfl := Option.some.inj h
      refine ⟨rfl, fun e he => ?_⟩
      rcases List.mem_cons.mp he with rfl | he
      · exact Or.inl (by rw [hk])
      · refine Or.inr ⟨List.mem_cons_of_mem _ he, fun heq => hnotin ?_⟩
        rw [hk, ← heq]
        exact List.mem_map_of_mem he
    · obtain ⟨hs', hs'eq, rfl⟩ := Option.map_eq_some_iff.mp h
      obtain ⟨hkeys, hentries⟩ := ih hs'eq hrest
      refine ⟨by rw [List.map_cons, List.map_cons, hkeys], fun e he => ?_⟩
      rcases List.mem_cons.mp he with rfl | he
      · exact Or.inr ⟨List.mem_cons_self, hk⟩
      · rcases hentries e he with hnew | ⟨hold, hne⟩
        · exact Or.inl hnew
        · exact Or.inr ⟨List.mem_cons_of_mem _ hold, hne⟩

/-- Swapping the last entry in removes one. -/
theorem swapRemove_perm {held : List Held} {i : ℕ} (hi : i < held.length) :
    (swapRemove i held).Perm (held.eraseIdx i) := by
  -- the entry swapped in is the last one, which may be the released one itself
  obtain ⟨init, x, rfl⟩ : ∃ init x, held = init ++ [x] := by
    have hne : held ≠ [] := List.ne_nil_of_length_pos (by omega)
    exact ⟨_, _, (List.dropLast_append_getLast hne).symm⟩
  rw [List.length_append, List.length_singleton] at hi
  rw [swapRemove, List.getLast?_append_of_ne_nil _ (by simp), List.getLast?_singleton]
  simp only
  rcases Nat.lt_or_ge i init.length with hlt | hge
  · rw [List.set_append_left _ _ hlt, List.dropLast_concat, List.eraseIdx_append_of_lt_length hlt]
    exact (List.set_perm_cons_eraseIdx hlt x).trans (List.perm_append_singleton x _).symm
  · obtain rfl : i = init.length := by omega
    rw [List.set_append_right _ _ (le_refl _), List.eraseIdx_append_of_length_le (le_refl _)]
    simp

/-- What is released was held, for longer than the hold by the clock. -/
theorem releaseExpired_eq_some {hold now : BitVec 32} {held held' : List Held} {k : UInt8}
    (h : releaseExpired hold now held = some (k, held')) :
    ∃ i e, held[i]? = some e ∧ e.key = k ∧ hold < now - e.last ∧
      held'.Perm (held.eraseIdx i) := by
  obtain ⟨i, hi, h⟩ := Option.bind_eq_some_iff.mp h
  obtain ⟨e, he, hpair⟩ := Option.map_eq_some_iff.mp h
  obtain ⟨rfl, rfl⟩ := Prod.mk.inj hpair
  obtain ⟨hlt, hexpired, -⟩ := List.findIdx?_eq_some_iff_getElem.mp hi
  rw [List.getElem?_eq_getElem hlt] at he
  obtain rfl := Option.some.inj he
  exact ⟨i, _, List.getElem?_eq_getElem hlt, rfl, by simpa using hexpired, swapRemove_perm hlt⟩

/-! ## Events -/

/-- What happened to one key, pressed or not, in order. -/
def eventsOf (k : UInt8) (es : List KeyEvent) : List Bool := (es.filter fun e => e.2 = k).map Prod.fst

/-- Of each key's events the even ones, counted from 0, are presses and the odd ones releases. -/
def Alternates (es : List KeyEvent) : Prop :=
  ∀ (k : UInt8) (i : ℕ) (b : Bool), (eventsOf k es)[i]? = some b → (b = true ↔ i % 2 = 0)

/-- The game sees the key down: its last event was a press. -/
def IsDown (es : List KeyEvent) (k : UInt8) : Prop := (eventsOf k es).length % 2 = 1

/-- The presses among the events. -/
def presses (es : List KeyEvent) : List UInt8 := (es.filter fun e => e.1).map Prod.snd

theorem eventsOf_append (k : UInt8) (es : List KeyEvent) (b : Bool) (k' : UInt8) :
    eventsOf k (es ++ [(b, k')]) = eventsOf k es ++ if k' = k then [b] else [] := by
  unfold eventsOf
  rw [List.filter_append, List.map_append]
  split_ifs with hk
  · simp [hk]
  · simp [hk]

/-- An event that goes the other way than the key's last keeps the alternation. -/
theorem alternates_append {es : List KeyEvent} {k : UInt8} {b : Bool} (h : Alternates es)
    (hb : b = true ↔ ¬ IsDown es k) : Alternates (es ++ [(b, k)]) := by
  intro k' i b' hi
  rw [eventsOf_append] at hi
  split_ifs at hi with hk
  · subst hk
    rw [List.getElem?_append] at hi
    split_ifs at hi with hlt
    · exact h k i b' hi
    · -- the new event is the only one past the old ones
      have hlast : i = (eventsOf k es).length := by
        rcases Nat.lt_or_ge (i - (eventsOf k es).length) 1 with hin | hout
        · omega
        · rw [List.getElem?_eq_none (by simpa using hout)] at hi
          cases hi
      rw [hlast, Nat.sub_self] at hi
      obtain rfl : b = b' := Option.some.inj hi
      rw [hb, hlast, IsDown]
      omega
  · rw [List.append_nil] at hi
    exact h k' i b' hi

theorem isDown_append (es : List KeyEvent) (b : Bool) (k k' : UInt8) :
    IsDown (es ++ [(b, k)]) k' ↔ if k = k' then ¬ IsDown es k' else IsDown es k' := by
  unfold IsDown
  rw [eventsOf_append]
  split_ifs with hk
  · rw [List.length_append, List.length_singleton]
    omega
  · rw [List.append_nil]

theorem presses_append (es : List KeyEvent) (b : Bool) (k : UInt8) :
    presses (es ++ [(b, k)]) = presses es ++ if b then [k] else [] := by
  cases b <;> simp [presses]

/-! ## Runs -/

/-- `DG_GetTicksMs` at some time: 32 bits of the milliseconds. -/
def ticks (ms : ℕ) : BitVec 32 := BitVec.ofNat 32 ms

/-- The program's keys, the time, and what has happened: the events returned, the presses pushed,
and for each key when its last byte was read and when the call that read it looked at the clock. -/
structure Doom where
  keys : Keys
  clock : ℕ
  events : List KeyEvent
  pushed : List UInt8
  lastByte : UInt8 → ℕ
  lastCall : UInt8 → ℕ

def doomInit : Doom where
  keys := ⟨[], fun _ => 0, 0, 0⟩
  clock := 0
  events := []
  pushed := []
  lastByte _ := 0
  lastCall _ := 0

/-- A call of `DG_GetKey`: when it reads the clock, and the answers it gets from the tty. -/
structure Poll where
  time : ℕ
  reads : List Read

/-- A touch by a call of some time, with what it means for the history. -/
def touch (time : ℕ) (k : UInt8) (read : ℕ) (s : Doom) : Doom :=
  { s with
    keys := keyTouch k (ticks time) s.keys
    pushed :=
      if s.keys.heldKeys.contains k || !decide (s.keys.held.length < heldMax) then s.pushed
      else s.pushed ++ [k]
    lastByte := Function.update s.lastByte k read
    lastCall := Function.update s.lastCall k time }

/-- Time goes on from call to call and from answer to answer. -/
def InOrder (s : Doom) (p : Poll) : Prop :=
  (s.clock :: p.time :: p.reads.map Read.time).Pairwise (· ≤ ·)

instance (s : Doom) (p : Poll) : Decidable (InOrder s p) :=
  inferInstanceAs (Decidable (List.Pairwise _ _))

/-- The history after the touches of a call. -/
def afterReads (K : KeyCodes) (s : Doom) (p : Poll) : Doom :=
  (pumpInput K (touch p.time) p.reads { s with clock := p.time }).1

/-- A call of `DG_GetKey`; the run is over when it ends the program. -/
def doomStep (K : KeyCodes) (hold : BitVec 32) (s : Doom) (p : Poll) : Option Doom :=
  if InOrder s p then
    (dgGetKey K hold (ticks p.time) p.reads s.keys).map fun r =>
      { afterReads K s p with
        keys := r.2
        events := s.events ++ r.1.toList
        clock := (p.reads.map Read.time).getLastD p.time }
  else none

/-- The table and the ring, and what the game has been told. -/
structure KeysInv (s : Doom) : Prop where
  head : s.keys.evh < 64
  tail : s.keys.evt < 64
  nodup : s.keys.heldKeys.Nodup
  few : s.keys.held.length ≤ heldMax
  queue_nodup : s.keys.queue.Nodup
  queue_held : ∀ k ∈ s.keys.queue, k ∈ s.keys.heldKeys
  pushed : s.pushed = presses s.events ++ s.keys.queue
  alternates : Alternates s.events
  down : ∀ k, IsDown s.events k ↔ k ∈ s.keys.heldKeys ∧ k ∉ s.keys.queue
  stamps : ∀ h ∈ s.keys.held, h.last = ticks (s.lastCall h.key) ∧ s.lastCall h.key ≤ s.clock

theorem keysInv_init : KeysInv doomInit where
  head := by decide
  tail := by decide
  nodup := List.nodup_nil
  few := Nat.zero_le _
  queue_nodup := List.nodup_nil
  queue_held k h := absurd h List.not_mem_nil
  pushed := rfl
  alternates k i b h := by cases h
  down k := by
    constructor
    · intro h
      simp [IsDown, eventsOf, doomInit] at h
    · intro h
      exact absurd h.1 List.not_mem_nil
  stamps h hmem := absurd hmem List.not_mem_nil

/-- The ring never holds more than the table. -/
theorem KeysInv.length_queue_le {s : Doom} (hs : KeysInv s) :
    s.keys.queue.length ≤ s.keys.held.length := by
  have hle := (hs.queue_nodup.subperm hs.queue_held).length_le
  rwa [Keys.heldKeys, List.length_map] at hle

/-- **The ring has room** for every press. -/
theorem KeysInv.room {s : Doom} (hs : KeysInv s) : (s.keys.evt + 1) % 64 ≠ s.keys.evh := by
  intro hfull
  -- a full ring would hold 63 presses, each of a held key
  have hsize := (ring_full_iff hs.head hs.tail).mp hfull
  have hlen : s.keys.queue.length = ringSize 64 s.keys.evh s.keys.evt := length_ringList _ _ _
  have hqueue := hs.length_queue_le
  have hfew := hs.few
  rw [hlen, hsize] at hqueue
  unfold heldMax at hfew
  omega

/-- A key that is not in a table with room: it is appended and its press queued. -/
theorem keyTouch_new {s : Keys} {k : UInt8} (now : BitVec 32) (hk : k ∉ s.heldKeys)
    (hlen : s.held.length < heldMax) (hroom : (s.evt + 1) % 64 ≠ s.evh) :
    keyTouch k now s = ⟨s.held ++ [⟨k, now⟩], Function.update s.evq s.evt k, s.evh,
      (s.evt + 1) % 64⟩ := by
  rw [keyTouch, renew_eq_none.mpr hk]
  simp only [if_pos hlen, evPush, and_63, if_pos hroom]

theorem keyTouch_full {s : Keys} {k : UInt8} (now : BitVec 32) (hk : k ∉ s.heldKeys)
    (hlen : ¬ s.held.length < heldMax) : keyTouch k now s = s := by
  rw [keyTouch, renew_eq_none.mpr hk]
  simp only [if_neg hlen]

theorem keyTouch_held {s : Keys} {k : UInt8} (now : BitVec 32) (hk : k ∈ s.heldKeys) :
    ∃ held, renew k now s.held = some held ∧ keyTouch k now s = { s with held := held } := by
  cases hrenew : renew k now s.held with
  | none => exact absurd hk (renew_eq_none.mp hrenew)
  | some held => exact ⟨held, rfl, by rw [keyTouch, hrenew]⟩

/-- What changes stamps only. -/
theorem KeysInv.of_same {s s' : Doom} (hs : KeysInv s)
    (hnames : s'.keys.heldKeys = s.keys.heldKeys) (hevq : s'.keys.evq = s.keys.evq)
    (hevh : s'.keys.evh = s.keys.evh) (hevt : s'.keys.evt = s.keys.evt)
    (hevents : s'.events = s.events) (hpushed : s'.pushed = s.pushed)
    (hstamps : ∀ h ∈ s'.keys.held, h.last = ticks (s'.lastCall h.key) ∧
      s'.lastCall h.key ≤ s'.clock) : KeysInv s' := by
  have hqueue : s'.keys.queue = s.keys.queue := by
    rw [Keys.queue, hevq, hevh, hevt]
    rfl
  have hlen := congrArg List.length hnames
  rw [Keys.heldKeys, Keys.heldKeys, List.length_map, List.length_map] at hlen
  constructor
  · rw [hevh]; exact hs.head
  · rw [hevt]; exact hs.tail
  · rw [hnames]; exact hs.nodup
  · rw [hlen]; exact hs.few
  · rw [hqueue]; exact hs.queue_nodup
  · rw [hqueue, hnames]; exact hs.queue_held
  · rw [hpushed, hevents, hqueue]; exact hs.pushed
  · rw [hevents]; exact hs.alternates
  · rw [hevents, hnames, hqueue]; exact hs.down
  · exact hstamps

/-- A touch of a key that is held. -/
theorem keysInv_touch_held {s : Doom} (hs : KeysInv s) {k : UInt8} (read : ℕ)
    (hk : k ∈ s.keys.heldKeys) : KeysInv (touch s.clock k read s) := by
  obtain ⟨held, hrenew, hkeys⟩ := keyTouch_held (ticks s.clock) hk
  obtain ⟨hsame, hentries⟩ := renew_eq_some hrenew hs.nodup
  have hheld : (touch s.clock k read s).keys = { s.keys with held := held } := hkeys
  apply hs.of_same
  · rw [hheld]
    exact hsame
  · rw [hheld]
  · rw [hheld]
  · rw [hheld]
  · rfl
  · simp only [touch]
    rw [if_pos (by simp [hk])]
  · intro e he
    rw [hheld] at he
    rcases hentries e he with rfl | ⟨hold, hne⟩
    · simp [touch]
    · simp only [touch, Function.update_of_ne hne]
      exact hs.stamps e hold

/-- A touch of a key that is not held while the table is full. -/
theorem keysInv_touch_full {s : Doom} (hs : KeysInv s) {k : UInt8} (read : ℕ)
    (hk : k ∉ s.keys.heldKeys) (hlen : ¬ s.keys.held.length < heldMax) :
    KeysInv (touch s.clock k read s) := by
  have hkeys : (touch s.clock k read s).keys = s.keys := keyTouch_full (ticks s.clock) hk hlen
  apply hs.of_same
  · rw [hkeys]
  · rw [hkeys]
  · rw [hkeys]
  · rw [hkeys]
  · rfl
  · simp only [touch]
    rw [if_pos (by simp [hlen])]
  · intro e he
    rw [hkeys] at he
    have hne : e.key ≠ k := by
      rintro rfl
      exact hk (List.mem_map_of_mem he)
    simp only [touch, Function.update_of_ne hne]
    exact hs.stamps e he

/-- A touch of a key that is not held while there is room: it is held and queued. -/
theorem keysInv_touch_new {s : Doom} (hs : KeysInv s) {k : UInt8} (read : ℕ)
    (hk : k ∉ s.keys.heldKeys) (hlen : s.keys.held.length < heldMax) :
    KeysInv (touch s.clock k read s) := by
  have hroom := hs.room
  have hkeys : (touch s.clock k read s).keys = _ := keyTouch_new (ticks s.clock) hk hlen hroom
  have hnames : (touch s.clock k read s).keys.heldKeys = s.keys.heldKeys ++ [k] := by
    rw [hkeys]
    simp [Keys.heldKeys]
  have hqueue : (touch s.clock k read s).keys.queue = s.keys.queue ++ [k] := by
    rw [hkeys]
    exact ringList_push hs.head hs.tail s.keys.evq k hroom
  -- what is queued is held, so the key is not queued twice
  have hfresh : k ∉ s.keys.queue := fun hmem => hk (hs.queue_held k hmem)
  have hpushed : (touch s.clock k read s).pushed = s.pushed ++ [k] := by
    simp only [touch]
    rw [if_neg (by simp [hk, hlen])]
  constructor
  · rw [hkeys]; exact hs.head
  · rw [hkeys]; exact Nat.mod_lt _ (by decide)
  · rw [hnames]
    exact hs.nodup.append (List.nodup_singleton k) (by simpa using hk)
  · rw [hkeys, List.length_append, List.length_singleton]
    exact hlen
  · rw [hqueue]
    exact hs.queue_nodup.append (List.nodup_singleton k) (by simpa using hfresh)
  · rw [hqueue, hnames]
    intro k' hk'
    rcases List.mem_append.mp hk' with hold | hnew
    · exact List.mem_append_left _ (hs.queue_held k' hold)
    · exact List.mem_append_right _ hnew
  · rw [hpushed, hqueue, hs.pushed, List.append_assoc]
    rfl
  · exact hs.alternates
  · -- the new key is queued, so the game does not see it yet
    intro k'
    rw [hqueue, hnames]
    refine (hs.down k').trans ?_
    simp only [List.mem_append, List.mem_singleton]
    constructor
    · rintro ⟨hheld, hnot⟩
      refine ⟨Or.inl hheld, ?_⟩
      rintro (hmem | rfl)
      · exact hnot hmem
      · exact hk hheld
    · rintro ⟨hheld | rfl, hnot⟩
      · exact ⟨hheld, fun hmem => hnot (Or.inl hmem)⟩
      · exact absurd (Or.inr rfl) hnot
  · intro e he
    rw [hkeys] at he
    rcases List.mem_append.mp he with hold | hnew
    · have hne : e.key ≠ k := by
        rintro rfl
        exact hk (List.mem_map_of_mem hold)
      simp only [touch, Function.update_of_ne hne]
      exact hs.stamps e hold
    · rw [List.mem_singleton.mp hnew]
      simp [touch]

/-- **A touch** keeps the invariant. -/
theorem keysInv_touch {s : Doom} (hs : KeysInv s) (k : UInt8) (read : ℕ) :
    KeysInv (touch s.clock k read s) := by
  by_cases hk : k ∈ s.keys.heldKeys
  · exact keysInv_touch_held hs read hk
  · by_cases hlen : s.keys.held.length < heldMax
    · exact keysInv_touch_new hs read hk hlen
    · exact keysInv_touch_full hs read hk hlen

/-- **A press** is taken from the ring. -/
theorem keysInv_press {s : Doom} (hs : KeysInv s) (hne : s.keys.evh ≠ s.keys.evt) :
    KeysInv { s with
      keys := { s.keys with evh := (s.keys.evh + 1) % 64 }
      events := s.events ++ [(true, s.keys.evq s.keys.evh)] } := by
  obtain ⟨k, hkey⟩ : ∃ k, s.keys.evq s.keys.evh = k := ⟨_, rfl⟩
  obtain ⟨rest, hrest⟩ : ∃ rest,
      ringList 64 s.keys.evq ((s.keys.evh + 1) % 64) s.keys.evt = rest := ⟨_, rfl⟩
  have hqueue : s.keys.queue = k :: rest := by
    rw [Keys.queue, ringList_pop hs.head hs.tail s.keys.evq hne, hkey, hrest]
  have hheld : k ∈ s.keys.heldKeys := hs.queue_held k (by rw [hqueue]; exact List.mem_cons_self)
  obtain ⟨hnotin, hnodup⟩ := List.nodup_cons.mp (hqueue ▸ hs.queue_nodup)
  -- a queued key has not been seen by the game, so a press is due
  have hup : ¬ IsDown s.events k := by
    rw [hs.down, hqueue]
    exact fun h => h.2 List.mem_cons_self
  rw [hkey]
  constructor
  · exact Nat.mod_lt _ (by decide)
  · exact hs.tail
  · exact hs.nodup
  · exact hs.few
  · change (ringList 64 _ _ _).Nodup
    rw [hrest]
    exact hnodup
  · change ∀ k ∈ ringList 64 _ _ _, k ∈ s.keys.heldKeys
    rw [hrest]
    exact fun k' hk' => hs.queue_held k' (by rw [hqueue]; exact List.mem_cons_of_mem _ hk')
  · change s.pushed = presses (s.events ++ [(true, k)]) ++ ringList 64 _ _ _
    rw [presses_append, hrest, hs.pushed, hqueue, List.append_assoc]
    rfl
  · exact alternates_append hs.alternates (by simp [hup])
  · intro k'
    change IsDown (s.events ++ [(true, k)]) k' ↔ k' ∈ s.keys.heldKeys ∧ k' ∉ ringList 64 _ _ _
    rw [isDown_append, hrest]
    split_ifs with heq
    · subst heq
      exact ⟨fun _ => ⟨hheld, hnotin⟩, fun _ => hup⟩
    · rw [hs.down, hqueue, List.mem_cons, not_or]
      exact ⟨fun h => ⟨h.1, h.2.2⟩, fun h => ⟨h.1, fun hk => heq hk.symm, h.2⟩⟩
  · exact hs.stamps

/-- **A release**, with no press waiting. -/
theorem keysInv_release {s : Doom} (hs : KeysInv s) (hempty : s.keys.evh = s.keys.evt)
    {hold now : BitVec 32} {k : UInt8} {held : List Held}
    (h : releaseExpired hold now s.keys.held = some (k, held)) :
    KeysInv { s with
      keys := { s.keys with held := held }
      events := s.events ++ [(false, k)] } := by
  obtain ⟨i, e, hi, rfl, -, hperm⟩ := releaseExpired_eq_some h
  obtain ⟨hlt, rfl⟩ := List.getElem?_eq_some_iff.mp hi
  have hqueue : s.keys.queue = [] := by
    rw [← List.length_eq_zero_iff, Keys.queue, length_ringList,
      (ringSize_eq_zero hs.head hs.tail).mpr hempty]
  have hall : (s.keys.held[i] :: held).Perm s.keys.held :=
    (hperm.cons _).trans (List.getElem_cons_eraseIdx_perm hlt)
  have hnames : (s.keys.held[i].key :: held.map Held.key).Perm s.keys.heldKeys :=
    hall.map Held.key
  obtain ⟨hgone, hnodup⟩ := List.nodup_cons.mp (hnames.nodup_iff.mpr hs.nodup)
  have hheld : s.keys.held[i].key ∈ s.keys.heldKeys := hnames.subset List.mem_cons_self
  -- with nothing queued every held key is down, so a release is due
  have hdown : IsDown s.events s.keys.held[i].key := by
    rw [hs.down, hqueue]
    exact ⟨hheld, List.not_mem_nil⟩
  constructor
  · exact hs.head
  · exact hs.tail
  · exact hnodup
  · have hlen := hall.length_eq
    have hfew := hs.few
    rw [List.length_cons] at hlen
    change held.length ≤ heldMax
    omega
  · exact hs.queue_nodup
  · change ∀ k ∈ s.keys.queue, k ∈ held.map Held.key
    rw [hqueue]
    exact fun k' hk' => absurd hk' List.not_mem_nil
  · change s.pushed = presses (s.events ++ [(false, _)]) ++ s.keys.queue
    rw [presses_append, hs.pushed, hqueue]
    simp
  · exact alternates_append hs.alternates (by simp [hdown])
  · intro k'
    change IsDown (s.events ++ [(false, _)]) k' ↔ k' ∈ held.map Held.key ∧ k' ∉ s.keys.queue
    rw [isDown_append, hqueue]
    split_ifs with heq
    · subst heq
      exact ⟨fun hup => absurd hdown hup, fun hmem => absurd hmem.1 hgone⟩
    · have hother : k' ∈ s.keys.heldKeys ↔ k' ∈ held.map Held.key := by
        rw [← hnames.mem_iff, List.mem_cons]
        exact ⟨fun hmem => hmem.resolve_left fun hk => heq hk.symm, Or.inr⟩
      rw [hs.down, hqueue, hother]
  · intro e he
    exact hs.stamps e (hall.subset (List.mem_cons_of_mem _ he))

/-- Time goes on. -/
theorem KeysInv.later {s : Doom} (hs : KeysInv s) {t : ℕ} (ht : s.clock ≤ t) :
    KeysInv { s with clock := t } := by
  refine ⟨hs.head, hs.tail, hs.nodup, hs.few, hs.queue_nodup, hs.queue_held, hs.pushed,
    hs.alternates, hs.down, fun h hmem => ?_⟩
  obtain ⟨hlast, hcall⟩ := hs.stamps h hmem
  exact ⟨hlast, hcall.trans ht⟩

/-- All touches of a call. -/
theorem keysInv_touchAll {time : ℕ} (l : List (UInt8 × ℕ)) {s : Doom} (hs : KeysInv s)
    (htime : s.clock = time) :
    KeysInv (touchAll (touch time) l s) ∧ (touchAll (touch time) l s).clock = time ∧
      (touchAll (touch time) l s).events = s.events := by
  induction l generalizing s with
  | nil => exact ⟨hs, htime, rfl⟩
  | cons p l ih =>
    subst htime
    exact ih (keysInv_touch hs p.1 p.2) rfl

/-- The keys are those of the program, whatever the history. -/
theorem keys_touchAll (time : ℕ) (l : List (UInt8 × ℕ)) (s : Doom) :
    (touchAll (touch time) l s).keys
      = touchAll (fun k _ s => keyTouch k (ticks time) s) l s.keys := by
  induction l generalizing s with
  | nil => rfl
  | cons p l ih => exact ih _

/-- The 32-bit difference of two times is no more than their difference. -/
theorem lt_sub_of_lt_ticks {hold : BitVec 32} {a b : ℕ} (hle : a ≤ b)
    (h : hold < ticks b - ticks a) : hold.toNat < b - a := by
  -- the clock may have wrapped between the two times; their difference has not
  have hsplit : ticks b = ticks (b - a) + ticks a := by
    rw [ticks, ticks, ticks, ← BitVec.ofNat_add, Nat.sub_add_cancel hle]
  have hdiff : ticks b - ticks a = ticks (b - a) := by
    rw [hsplit, BitVec.add_sub_cancel]
  rw [hdiff, BitVec.lt_def, ticks, BitVec.toNat_ofNat] at h
  exact lt_of_lt_of_le h (Nat.mod_le _ _)

/-- The history after a call's reads, and how the call ends. -/
inductive Ends (hold : BitVec 32) (p : Poll) (m : Doom) : Doom → Prop where
  | press (hne : m.keys.evh ≠ m.keys.evt) (t : ℕ) (ht : p.time ≤ t) :
    Ends hold p m { m with
      keys := { m.keys with evh := (m.keys.evh + 1) % 64 }
      events := m.events ++ [(true, m.keys.evq m.keys.evh)]
      clock := t }
  | release (hempty : m.keys.evh = m.keys.evt) (k : UInt8) (held : List Held)
    (h : releaseExpired hold (ticks p.time) m.keys.held = some (k, held)) (t : ℕ)
    (ht : p.time ≤ t) :
    Ends hold p m { m with
      keys := { m.keys with held := held }
      events := m.events ++ [(false, k)]
      clock := t }
  | nothing (t : ℕ) (ht : p.time ≤ t) : Ends hold p m { m with clock := t }

/-- **One call**: the reads, then at most one event. -/
theorem doomStep_eq_some {K : KeyCodes} {hold : BitVec 32} {s s' : Doom} {p : Poll}
    (hs : KeysInv s) (h : doomStep K hold s p = some s') :
    s.clock ≤ p.time ∧ KeysInv (afterReads K s p) ∧ (afterReads K s p).clock = p.time ∧
      (afterReads K s p).events = s.events ∧ Ends hold p (afterReads K s p) s' := by
  unfold doomStep at h
  split_ifs at h with horder
  have hclock : s.clock ≤ p.time := (List.pairwise_cons.mp horder).1 _ List.mem_cons_self
  -- the call ends when its last answer has come
  have hlast : p.time ≤ (p.reads.map Read.time).getLastD p.time := by
    rcases List.mem_cons.mp (@List.getLastD_mem_cons _ (p.reads.map Read.time) p.time) with heq | hmem
    · exact heq.ge
    · exact (List.pairwise_cons.mp (List.pairwise_cons.mp horder).2).1 _ hmem
  have hreads : afterReads K s p
      = touchAll (touch p.time) (pumpTouches K p.reads).1 { s with clock := p.time } := by
    rw [afterReads, pumpInput_eq_touchAll]
  obtain ⟨hinv, htime, hevents⟩ := keysInv_touchAll (pumpTouches K p.reads).1 (hs.later hclock) rfl
  have hkeys : (afterReads K s p).keys
      = touchAll (fun k _ s => keyTouch k (ticks p.time) s) (pumpTouches K p.reads).1 s.keys := by
    rw [hreads, keys_touchAll]
  rw [← hreads] at hinv htime hevents
  refine ⟨hclock, hinv, htime, hevents, ?_⟩
  obtain ⟨r, hr, rfl⟩ := Option.map_eq_some_iff.mp h
  rw [dgGetKey, pumpInput_eq_touchAll, ← hkeys] at hr
  cases hend : (pumpTouches K p.reads).2 with
  | exited =>
    rw [hend] at hr
    cases hr
  | returned =>
    rw [hend] at hr
    simp only at hr
    have hmid : (afterReads K s p).events = s.events := hevents
    split_ifs at hr with hne
    · obtain rfl := Option.some.inj hr
      rw [and_63, ← hmid]
      exact Ends.press hne _ hlast
    · have hempty := not_not.mp hne
      cases hrelease : releaseExpired hold (ticks p.time) (afterReads K s p).keys.held with
      | none =>
        rw [hrelease] at hr
        obtain rfl := Option.some.inj hr
        rw [Option.toList_none, List.append_nil, ← hmid]
        exact Ends.nothing _ hlast
      | some found =>
        obtain ⟨k, held⟩ := found
        rw [hrelease] at hr
        obtain rfl := Option.some.inj hr
        rw [← hmid]
        exact Ends.release hempty k held hrelease _ hlast

/-- **A call** keeps the invariant. -/
theorem keysInv_step {K : KeyCodes} {hold : BitVec 32} {s s' : Doom} {p : Poll} (hs : KeysInv s)
    (h : doomStep K hold s p = some s') : KeysInv s' := by
  obtain ⟨-, hinv, htime, -, hend⟩ := doomStep_eq_some hs h
  cases hend with
  | press hne t ht => exact (keysInv_press hinv hne).later (htime.trans_le ht)
  | release hempty k held hrelease t ht =>
    exact (keysInv_release hinv hempty hrelease).later (htime.trans_le ht)
  | nothing t ht => exact hinv.later (htime.trans_le ht)

/-- The call released this key. -/
def Releases (s s' : Doom) (k : UInt8) : Prop := s'.events = s.events ++ [(false, k)]

/-- A release comes more than the hold after the call that read the key's last byte. -/
theorem hold_lt_of_releases {K : KeyCodes} {hold : BitVec 32} {s s' : Doom} {p : Poll} {k : UInt8}
    (hs : KeysInv s) (h : doomStep K hold s p = some s') (hk : Releases s s' k) :
    hold.toNat < p.time - s'.lastCall k := by
  obtain ⟨-, hinv, htime, hevents, hend⟩ := doomStep_eq_some hs h
  unfold Releases at hk
  cases hend with
  | press hne t ht =>
    rw [hevents] at hk
    simp at hk
  | nothing t ht =>
    rw [hevents] at hk
    simp at hk
  | release hempty k' held hrelease t ht =>
    rw [hevents] at hk
    obtain rfl : k' = k := by simpa using hk
    obtain ⟨i, e, hi, rfl, hexpired, -⟩ := releaseExpired_eq_some hrelease
    -- the stamp is the clock of the call that read the key last
    obtain ⟨hlast, hcall⟩ := hinv.stamps e (List.mem_of_getElem? hi)
    rw [hlast] at hexpired
    exact lt_sub_of_lt_ticks (hcall.trans_eq htime) hexpired

/-- The bytes of keys are read while the clock shows what the call read there. -/
def Prompt (K : KeyCodes) (p : Poll) : Prop := ∀ q ∈ (pumpTouches K p.reads).1, q.2 = p.time

theorem last_touchAll {time : ℕ} {l : List (UInt8 × ℕ)} (hl : ∀ q ∈ l, q.2 = time) {s : Doom}
    (hs : s.lastByte = s.lastCall) :
    (touchAll (touch time) l s).lastByte = (touchAll (touch time) l s).lastCall := by
  induction l generalizing s with
  | nil => exact hs
  | cons q l ih =>
    apply ih fun q' hq' => hl q' (List.mem_cons_of_mem _ hq')
    change Function.update s.lastByte q.1 q.2 = Function.update s.lastCall q.1 time
    rw [hl q List.mem_cons_self, hs]

/-- Prompt calls read the last byte when they look at the clock. -/
theorem last_step {K : KeyCodes} {hold : BitVec 32} {s s' : Doom} {p : Poll} (hs : KeysInv s)
    (hsame : s.lastByte = s.lastCall) (hp : Prompt K p) (h : doomStep K hold s p = some s') :
    s'.lastByte = s'.lastCall := by
  have hreads : (afterReads K s p).lastByte = (afterReads K s p).lastCall := by
    rw [afterReads, pumpInput_eq_touchAll]
    exact last_touchAll hp hsame
  obtain ⟨-, -, -, -, hend⟩ := doomStep_eq_some hs h
  cases hend with
  | press hne t ht => exact hreads
  | release hempty k held hrelease t ht => exact hreads
  | nothing t ht => exact hreads

/-- Each key's events alternate from a press on, no press is lost on its way through the ring, and
the table has each key once and at most 16. -/
def EventsInOrder (s : Doom) : Prop :=
  Alternates s.events ∧ s.pushed = presses s.events ++ s.keys.queue ∧ s.keys.heldKeys.Nodup ∧
    s.keys.held.length ≤ heldMax

/-- **Key events are well formed** in every run of calls, and a release comes more than the hold
after the call that read the key's last byte looked at the clock; it comes more than the hold after
the byte itself in every run whose calls read their keys promptly. -/
theorem keyEvents_wellFormed (K : KeyCodes) (hold : BitVec 32) (run : List Poll) :
    (∀ s, Visits (doomStep K hold) doomInit run s → EventsInOrder s) ∧
    (∀ s p, Takes (doomStep K hold) doomInit run s p → ∀ s' k,
      doomStep K hold s p = some s' → Releases s s' k → hold.toNat < p.time - s'.lastCall k) ∧
    ((∀ s p, Takes (doomStep K hold) doomInit run s p → Prompt K p) →
      ∀ s p, Takes (doomStep K hold) doomInit run s p → ∀ s' k,
        doomStep K hold s p = some s' → Releases s s' k → hold.toNat < p.time - s'.lastByte k) := by
  have hinv : ∀ s, Visits (doomStep K hold) doomInit run s → KeysInv s := by
    intro s hs
    exact inv_of_visits (fun s p s' hs (_ : True) h => keysInv_step hs h) keysInv_init
      (fun _ _ _ => trivial) hs
  refine ⟨fun s hs => ?_, fun s p htakes s' k h hk => ?_, fun hprompt s p htakes s' k h hk => ?_⟩
  · have h := hinv s hs
    exact ⟨h.alternates, h.pushed, h.nodup, h.few⟩
  · exact hold_lt_of_releases (hinv s (visits_of_takes htakes h).1) h hk
  · -- the two histories agree along a run of prompt calls
    have hlast : ∀ t, Visits (doomStep K hold) doomInit run t →
        KeysInv t ∧ t.lastByte = t.lastCall := by
      have hkeep : ∀ t p t', KeysInv t ∧ t.lastByte = t.lastCall → Prompt K p →
          doomStep K hold t p = some t' → KeysInv t' ∧ t'.lastByte = t'.lastCall :=
        fun t p t' hpair hp hstep =>
          ⟨keysInv_step hpair.1 hstep, last_step hpair.1 hpair.2 hp hstep⟩
      intro t ht
      exact inv_of_visits hkeep ⟨keysInv_init, rfl⟩ hprompt ht
    obtain ⟨hbefore, hafter⟩ := visits_of_takes htakes h
    rw [(hlast s' hafter).2]
    exact hold_lt_of_releases (hinv s hbefore) h hk

/-- An `ESC` at 0, and `x` and `w` four milliseconds later. -/
def slowAlt : Poll where
  time := 0
  reads := [⟨0, some ESC⟩, ⟨4, some 'x'.toUInt8⟩, ⟨4, some 'w'.toUInt8⟩, ⟨4, none⟩]

def laterPoll : Poll where
  time := 551
  reads := [⟨551, none⟩]

/-- The `w` is released 547 milliseconds after it was read. -/
theorem not_hold_lt_slowAlt :
    ¬ ∀ s p, Takes (doomStep doomKeys 550) doomInit [slowAlt, laterPoll] s p → ∀ s' k,
      doomStep doomKeys 550 s p = some s' → Releases s s' k →
        (550 : BitVec 32).toNat < p.time - s'.lastByte k := by
  intro h
  obtain ⟨s, hs⟩ : ∃ s, doomStep doomKeys 550 doomInit slowAlt = some s := ⟨_, rfl⟩
  obtain ⟨s', hs'⟩ : ∃ s', doomStep doomKeys 550 s laterPoll = some s' := by
    obtain rfl := Option.some.inj hs
    exact ⟨_, rfl⟩
  have hrelease : Releases s s' doomKeys.KEY_UPARROW := by
    obtain rfl := Option.some.inj hs
    obtain rfl := Option.some.inj hs'
    rfl
  have hread : s'.lastByte doomKeys.KEY_UPARROW = 4 := by
    obtain rfl := Option.some.inj hs
    obtain rfl := Option.some.inj hs'
    rfl
  have htakes : Takes (doomStep doomKeys 550) doomInit [slowAlt, laterPoll] s laterPoll := by
    refine ⟨[slowAlt], List.prefix_rfl, ?_, by rw [hs']; rfl⟩
    rw [runSteps, hs]
    rfl
  have hlt := h s laterPoll htakes s' _ hs' hrelease
  rw [hread] at hlt
  exact absurd hlt (by decide)

end OsMoap.Guest
