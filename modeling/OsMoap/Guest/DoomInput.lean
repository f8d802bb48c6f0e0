import Mathlib.Data.List.Basic

/-!
# Doom's Keyboard

`map_key` and `pump_input` of `guest/pkgs/doom/doomgeneric_osmoap.c`: the bytes of the raw tty,
read one by one, are turned into keys that are passed to `key_touch`.

After `ESC [` one byte is looked at, whatever kind of sequence it is in.  An arrow is that byte; of
a sequence with parameters or intermediates the rest is read as typed text, so it leaves no key
exactly when none of that text is a key (`recognised_iff`).

What is done with a key is a parameter of `pumpInput`, and so are the key codes of `doomkeys.h`.
-/

namespace OsMoap.Guest

/-- The codes of `doomkeys.h` that `map_key` and `pump_input` use: different ones, none 0. -/
structure KeyCodes where
  KEY_UPARROW : UInt8
  KEY_DOWNARROW : UInt8
  KEY_LEFTARROW : UInt8
  KEY_RIGHTARROW : UInt8
  KEY_STRAFE_L : UInt8
  KEY_STRAFE_R : UInt8
  KEY_FIRE : UInt8
  KEY_USE : UInt8
  KEY_RSHIFT : UInt8
  KEY_ENTER : UInt8
  KEY_TAB : UInt8
  KEY_ESCAPE : UInt8
  distinct : [0, KEY_UPARROW, KEY_DOWNARROW, KEY_LEFTARROW, KEY_RIGHTARROW, KEY_STRAFE_L,
    KEY_STRAFE_R, KEY_FIRE, KEY_USE, KEY_RSHIFT, KEY_ENTER, KEY_TAB, KEY_ESCAPE].Nodup

/-- What `rd_byte` answers, and the time in milliseconds when it does: a byte, or nothing in time. -/
structure Read where
  time : ℕ
  byte : Option UInt8
  deriving DecidableEq

/-- How `pump_input` ends. -/
inductive PumpEnd where
  | returned
  | exited
  deriving DecidableEq

section Pump

variable (K : KeyCodes)

/-- `map_key`. -/
def mapKey (c : UInt8) : UInt8 :=
  if c = 'w'.toUInt8 ∨ c = 'W'.toUInt8 then K.KEY_UPARROW
  else if c = 's'.toUInt8 ∨ c = 'S'.toUInt8 then K.KEY_DOWNARROW
  else if c = 'a'.toUInt8 ∨ c = 'A'.toUInt8 then K.KEY_STRAFE_L
  else if c = 'd'.toUInt8 ∨ c = 'D'.toUInt8 then K.KEY_STRAFE_R
  else if c = ' '.toUInt8 then K.KEY_FIRE
  else if c = 'e'.toUInt8 ∨ c = 'E'.toUInt8 then K.KEY_USE
  else if c = 'r'.toUInt8 ∨ c = 'R'.toUInt8 then K.KEY_RSHIFT
  else if c = '\r'.toUInt8 ∨ c = '\n'.toUInt8 then K.KEY_ENTER
  else if c = '\t'.toUInt8 then K.KEY_TAB
  -- weapons, prompts, pause
  else if ('1'.toUInt8 ≤ c ∧ c ≤ '8'.toUInt8) ∨ c = 'y'.toUInt8 ∨ c = 'n'.toUInt8 ∨
      c = 'p'.toUInt8 then c
  else 0

/-- The `switch` on the byte after `ESC [`. -/
def arrowKey (c : Option UInt8) : UInt8 :=
  if c = some 'A'.toUInt8 then K.KEY_UPARROW
  else if c = some 'B'.toUInt8 then K.KEY_DOWNARROW
  else if c = some 'C'.toUInt8 then K.KEY_RIGHTARROW
  else if c = some 'D'.toUInt8 then K.KEY_LEFTARROW
  else 0

def ESC : UInt8 := 0x1b

/-- `^C`. -/
def ETX : UInt8 := 0x03

variable {σ : Type}

/-- `if (k) key_touch(k, now)`. -/
def touchKey (touch : UInt8 → ℕ → σ → σ) (k : UInt8) (time : ℕ) (s : σ) : σ :=
  if k ≠ 0 then touch k time s else s

/-- The loop of `pump_input` over the answers of `rd_byte`; past their end nothing comes in time.
A key comes with the time its byte was read. -/
def pumpInput (touch : UInt8 → ℕ → σ → σ) : List Read → σ → σ × PumpEnd
  | [], s => (s, .returned)
  | r :: rest, s =>
    match r.byte with
    | none => (s, .returned)
    | some c =>
      if c = ETX then (s, .exited)
      else if c = ESC then
        match rest with
        -- a lone ESC
        | [] => (touchKey touch K.KEY_ESCAPE r.time s, .returned)
        | r₂ :: rest =>
          match r₂.byte with
          | none => pumpInput touch rest (touchKey touch K.KEY_ESCAPE r.time s)
          | some c₂ =>
            if c₂ = '['.toUInt8 then
              match rest with
              | [] => (s, .returned)
              | r₃ :: rest => pumpInput touch rest (touchKey touch (arrowKey K r₃.byte) r₃.time s)
            -- alt+X: treat as X
            else pumpInput touch rest (touchKey touch (mapKey K c₂) r₂.time s)
      else pumpInput touch rest (touchKey touch (mapKey K c) r.time s)

/-- The keys that are touched, with their times, and how the call ends. -/
def pumpTouches (reads : List Read) : List (UInt8 × ℕ) × PumpEnd :=
  pumpInput K (fun k t l => l ++ [(k, t)]) reads []

end Pump

/-! ## The rounds of the loop -/

section Rounds

variable (K : KeyCodes) {σ : Type} (touch : UInt8 → ℕ → σ → σ) {r r₂ : Read} (r₃ : Read)
  (rest : List Read) (s : σ) {c : UInt8}

theorem pumpInput_stop (h : r.byte = none) : pumpInput K touch (r :: rest) s = (s, .returned) := by
  conv_lhs => rw [pumpInput.eq_def]
  simp only [h]

theorem pumpInput_quit (h : r.byte = some ETX) :
    pumpInput K touch (r :: rest) s = (s, .exited) := by
  conv_lhs => rw [pumpInput.eq_def]
  simp only [h, if_true]

theorem pumpInput_text (h : r.byte = some c) (hetx : c ≠ ETX) (hesc : c ≠ ESC) :
    pumpInput K touch (r :: rest) s
      = pumpInput K touch rest (touchKey touch (mapKey K c) r.time s) := by
  conv_lhs => rw [pumpInput.eq_def]
  simp only [h, if_neg hetx, if_neg hesc]

theorem esc_ne_etx : ESC ≠ ETX := by decide

theorem pumpInput_esc (h : r.byte = some ESC) :
    pumpInput K touch [r] s = (touchKey touch K.KEY_ESCAPE r.time s, .returned) := by
  conv_lhs => rw [pumpInput.eq_def]
  simp only [h, if_neg esc_ne_etx, if_true]

theorem pumpInput_lone (h : r.byte = some ESC) (h₂ : r₂.byte = none) :
    pumpInput K touch (r :: r₂ :: rest) s
      = pumpInput K touch rest (touchKey touch K.KEY_ESCAPE r.time s) := by
  conv_lhs => rw [pumpInput.eq_def]
  simp only [h, h₂, if_neg esc_ne_etx, if_true]

theorem pumpInput_alt (h : r.byte = some ESC) (h₂ : r₂.byte = some c) (hc : c ≠ '['.toUInt8) :
    pumpInput K touch (r :: r₂ :: rest) s
      = pumpInput K touch rest (touchKey touch (mapKey K c) r₂.time s) := by
  conv_lhs => rw [pumpInput.eq_def]
  simp only [h, h₂, if_neg esc_ne_etx, if_true, if_neg hc]

theorem pumpInput_csi_end (h : r.byte = some ESC) (h₂ : r₂.byte = some '['.toUInt8) :
    pumpInput K touch [r, r₂] s = (s, .returned) := by
  conv_lhs => rw [pumpInput.eq_def]
  simp only [h, h₂, if_neg esc_ne_etx, if_true]

theorem pumpInput_csi (h : r.byte = some ESC) (h₂ : r₂.byte = some '['.toUInt8) :
    pumpInput K touch (r :: r₂ :: r₃ :: rest) s
      = pumpInput K touch rest (touchKey touch (arrowKey K r₃.byte) r₃.time s) := by
  conv_lhs => rw [pumpInput.eq_def]
  simp only [h, h₂, if_neg esc_ne_etx, if_true]

/-- **Rounds**: what holds where the loop ends and is kept by each kind of round holds of every
list of answers. -/
theorem rounds_induction {motive : List Read → Prop} (nil : motive [])
    (stop : ∀ r rest, r.byte = none → motive (r :: rest))
    (quit : ∀ r rest, r.byte = some ETX → motive (r :: rest))
    (text : ∀ r rest c, r.byte = some c → c ≠ ETX → c ≠ ESC → motive rest → motive (r :: rest))
    (esc : ∀ r, r.byte = some ESC → motive [r])
    (lone : ∀ r r₂ rest, r.byte = some ESC → r₂.byte = none → motive rest →
      motive (r :: r₂ :: rest))
    (alt : ∀ r r₂ rest c, r.byte = some ESC → r₂.byte = some c → c ≠ '['.toUInt8 → motive rest →
      motive (r :: r₂ :: rest))
    (csiEnd : ∀ r r₂, r.byte = some ESC → r₂.byte = some '['.toUInt8 → motive [r, r₂])
    (csi : ∀ r r₂ r₃ rest, r.byte = some ESC → r₂.byte = some '['.toUInt8 → motive rest →
      motive (r :: r₂ :: r₃ :: rest)) :
    ∀ reads, motive reads
  | [] => nil
  | r :: rest => by
    cases hr : r.byte with
    | none => exact stop r rest hr
    | some c =>
      by_cases hetx : c = ETX
      · exact quit r rest (hetx ▸ hr)
      by_cases hesc : c = ESC
      · subst hesc
        match rest with
        | [] => exact esc r hr
        | r₂ :: rest =>
          cases hr₂ : r₂.byte with
          | none =>
            exact lone r r₂ rest hr hr₂
              (rounds_induction nil stop quit text esc lone alt csiEnd csi rest)
          | some c₂ =>
            -- after ESC only `[` takes a third byte with it
            by_cases hbracket : c₂ = '['.toUInt8
            · subst hbracket
              match rest with
              | [] => exact csiEnd r r₂ hr hr₂
              | r₃ :: rest =>
                exact csi r r₂ r₃ rest hr hr₂
                  (rounds_induction nil stop quit text esc lone alt csiEnd csi rest)
            · exact alt r r₂ rest c₂ hr hr₂ hbracket
                (rounds_induction nil stop quit text esc lone alt csiEnd csi rest)
      · exact text r rest c hr hetx hesc
          (rounds_induction nil stop quit text esc lone alt csiEnd csi rest)

end Rounds

/-! ## What the loop does with the keys -/

section Natural

variable (K : KeyCodes) {σ τ : Type}

/-- What is read does not depend on what is done with the keys. -/
theorem pumpInput_map {touch : UInt8 → ℕ → σ → σ} {touch' : UInt8 → ℕ → τ → τ} {f : σ → τ}
    (hf : ∀ k t s, f (touch k t s) = touch' k t (f s)) (reads : List Read) (s : σ) :
    pumpInput K touch' reads (f s)
      = (f (pumpInput K touch reads s).1, (pumpInput K touch reads s).2) := by
  have htouch : ∀ k t s, touchKey touch' k t (f s) = f (touchKey touch k t s) := by
    intro k t s
    unfold touchKey
    split_ifs
    · exact (hf k t s).symm
    · rfl
  induction reads using rounds_induction generalizing s with
  | nil => rfl
  | stop r rest h => rw [pumpInput_stop _ _ _ _ h, pumpInput_stop _ _ _ _ h]
  | quit r rest h => rw [pumpInput_quit _ _ _ _ h, pumpInput_quit _ _ _ _ h]
  | text r rest c h hetx hesc ih =>
    rw [pumpInput_text _ _ _ _ h hetx hesc, pumpInput_text _ _ _ _ h hetx hesc, htouch, ih]
  | esc r h => rw [pumpInput_esc _ _ _ h, pumpInput_esc _ _ _ h, htouch]
  | lone r r₂ rest h h₂ ih =>
    rw [pumpInput_lone _ _ _ _ h h₂, pumpInput_lone _ _ _ _ h h₂, htouch, ih]
  | alt r r₂ rest c h h₂ hc ih =>
    rw [pumpInput_alt _ _ _ _ h h₂ hc, pumpInput_alt _ _ _ _ h h₂ hc, htouch, ih]
  | csiEnd r r₂ h h₂ => rw [pumpInput_csi_end _ _ _ h h₂, pumpInput_csi_end _ _ _ h h₂]
  | csi r r₂ r₃ rest h h₂ ih =>
    rw [pumpInput_csi _ _ _ _ _ h h₂, pumpInput_csi _ _ _ _ _ h h₂, htouch, ih]

/-- Touch keys one after the other. -/
def touchAll (touch : UInt8 → ℕ → σ → σ) (l : List (UInt8 × ℕ)) (s : σ) : σ :=
  l.foldl (fun s p => touch p.1 p.2 s) s

/-- The loop is a walk over the touched keys. -/
theorem pumpInput_eq_touchAll (touch : UInt8 → ℕ → σ → σ) (reads : List Read) (s : σ) :
    pumpInput K touch reads s
      = (touchAll touch (pumpTouches K reads).1 s, (pumpTouches K reads).2) := by
  have hsnoc : ∀ (k : UInt8) (t : ℕ) (l : List (UInt8 × ℕ)),
      touchAll touch (l ++ [(k, t)]) s = touch k t (touchAll touch l s) := by
    intro k t l
    rw [touchAll, List.foldl_append]
    rfl
  exact pumpInput_map K (f := fun l => touchAll touch l s) hsnoc reads []

/-- What is touched from here on is added to what was. -/
theorem pumpInput_log (reads : List Read) (l : List (UInt8 × ℕ)) :
    pumpInput K (fun k t l => l ++ [(k, t)]) reads l
      = (l ++ (pumpTouches K reads).1, (pumpTouches K reads).2) := by
  have hsnoc : ∀ (k : UInt8) (t : ℕ) (l' : List (UInt8 × ℕ)),
      l ++ (l' ++ [(k, t)]) = l ++ l' ++ [(k, t)] := fun k t l' => (List.append_assoc l l' _).symm
  have hmap := @pumpInput_map K _ _ (fun k t l => l ++ [(k, t)]) (fun k t l => l ++ [(k, t)])
    (l ++ ·) hsnoc reads []
  rwa [List.append_nil] at hmap

/-- A key by itself. -/
def keyAt (k : UInt8) (time : ℕ) : List (UInt8 × ℕ) := if k ≠ 0 then [(k, time)] else []

theorem touchKey_log (k : UInt8) (time : ℕ) (l : List (UInt8 × ℕ)) :
    touchKey (fun k t l => l ++ [(k, t)]) k time l = l ++ keyAt k time := by
  unfold touchKey keyAt
  split_ifs
  · rfl
  · exact (List.append_nil l).symm

end Natural

section Touches

variable (K : KeyCodes) {r r₂ : Read} (r₃ : Read) (rest : List Read) {c : UInt8}

/-- Put touched keys before what follows. -/
def before (l : List (UInt8 × ℕ)) (p : List (UInt8 × ℕ) × PumpEnd) :
    List (UInt8 × ℕ) × PumpEnd := (l ++ p.1, p.2)

theorem before_before (l l' : List (UInt8 × ℕ)) (p : List (UInt8 × ℕ) × PumpEnd) :
    before l (before l' p) = before (l ++ l') p := by
  rw [before, before, before, List.append_assoc]

theorem pumpTouches_nil : pumpTouches K [] = ([], .returned) := rfl

theorem pumpTouches_text (h : r.byte = some c) (hetx : c ≠ ETX) (hesc : c ≠ ESC) :
    pumpTouches K (r :: rest) = before (keyAt (mapKey K c) r.time) (pumpTouches K rest) := by
  rw [pumpTouches, pumpInput_text _ _ _ _ h hetx hesc, touchKey_log, List.nil_append, pumpInput_log]
  rfl

theorem pumpTouches_esc (h : r.byte = some ESC) :
    pumpTouches K [r] = (keyAt K.KEY_ESCAPE r.time, .returned) := by
  rw [pumpTouches, pumpInput_esc _ _ _ h, touchKey_log, List.nil_append]

theorem pumpTouches_lone (h : r.byte = some ESC) (h₂ : r₂.byte = none) :
    pumpTouches K (r :: r₂ :: rest) = before (keyAt K.KEY_ESCAPE r.time) (pumpTouches K rest) := by
  rw [pumpTouches, pumpInput_lone _ _ _ _ h h₂, touchKey_log, List.nil_append, pumpInput_log]
  rfl

theorem pumpTouches_alt (h : r.byte = some ESC) (h₂ : r₂.byte = some c) (hc : c ≠ '['.toUInt8) :
    pumpTouches K (r :: r₂ :: rest) = before (keyAt (mapKey K c) r₂.time) (pumpTouches K rest) := by
  rw [pumpTouches, pumpInput_alt _ _ _ _ h h₂ hc, touchKey_log, List.nil_append, pumpInput_log]
  rfl

theorem pumpTouches_csi_end (h : r.byte = some ESC) (h₂ : r₂.byte = some '['.toUInt8) :
    pumpTouches K [r, r₂] = ([], .returned) := by
  rw [pumpTouches, pumpInput_csi_end _ _ _ h h₂]

theorem pumpTouches_csi (h : r.byte = some ESC) (h₂ : r₂.byte = some '['.toUInt8) :
    pumpTouches K (r :: r₂ :: r₃ :: rest)
      = before (keyAt (arrowKey K r₃.byte) r₃.time) (pumpTouches K rest) := by
  rw [pumpTouches, pumpInput_csi _ _ _ _ _ h h₂, touchKey_log, List.nil_append, pumpInput_log]
  rfl

end Touches

/-! ## Where the loop stands -/

/-- At its top, or waiting for a byte after `ESC` or after `ESC [`. -/
inductive LoopAt where
  | top
  | esc
  | csi
  deriving DecidableEq

/-- Where the loop stands after some answers; `none` when the call has ended by then. -/
def position : List Read → Option LoopAt
  | [] => some .top
  | r :: rest =>
    match r.byte with
    | none => none
    | some c =>
      if c = ETX then none
      else if c = ESC then
        match rest with
        | [] => some .esc
        | r₂ :: rest =>
          match r₂.byte with
          | none => position rest
          | some c₂ =>
            if c₂ = '['.toUInt8 then
              match rest with
              | [] => some .csi
              | _ :: rest => position rest
            else position rest
      else position rest

theorem position_stop {r : Read} (rest : List Read) (h : r.byte = none) :
    position (r :: rest) = none := by
  conv_lhs => rw [position.eq_def]
  simp only [h]

theorem position_quit {r : Read} (rest : List Read) (h : r.byte = some ETX) :
    position (r :: rest) = none := by
  conv_lhs => rw [position.eq_def]
  simp only [h, if_true]

theorem position_text {r : Read} (rest : List Read) {c : UInt8} (h : r.byte = some c)
    (hetx : c ≠ ETX) (hesc : c ≠ ESC) : position (r :: rest) = position rest := by
  conv_lhs => rw [position.eq_def]
  simp only [h, if_neg hetx, if_neg hesc]

theorem position_esc {r : Read} (h : r.byte = some ESC) : position [r] = some .esc := by
  conv_lhs => rw [position.eq_def]
  simp only [h, if_neg esc_ne_etx, if_true]

/-- A byte other than `[` or none after `ESC`. -/
theorem position_after_esc {r r₂ : Read} (rest : List Read) (h : r.byte = some ESC)
    (h₂ : r₂.byte ≠ some '['.toUInt8) : position (r :: r₂ :: rest) = position rest := by
  conv_lhs => rw [position.eq_def]
  cases hr₂ : r₂.byte with
  | none => simp only [h, hr₂, if_neg esc_ne_etx, if_true]
  | some c =>
    have hc : c ≠ '['.toUInt8 := fun hc => h₂ (hr₂.trans (congrArg some hc))
    simp only [h, hr₂, if_neg esc_ne_etx, if_true, if_neg hc]

theorem position_csi_end {r r₂ : Read} (h : r.byte = some ESC) (h₂ : r₂.byte = some '['.toUInt8) :
    position [r, r₂] = some .csi := by
  conv_lhs => rw [position.eq_def]
  simp only [h, h₂, if_neg esc_ne_etx, if_true]

theorem position_csi {r r₂ : Read} (r₃ : Read) (rest : List Read) (h : r.byte = some ESC)
    (h₂ : r₂.byte = some '['.toUInt8) : position (r :: r₂ :: r₃ :: rest) = position rest := by
  conv_lhs => rw [position.eq_def]
  simp only [h, h₂, if_neg esc_ne_etx, if_true]

/-- Answers that leave the loop at its top do not mix with what comes after them. -/
theorem pumpTouches_append (K : KeyCodes) {pre : List Read} (h : position pre = some .top)
    (post : List Read) :
    pumpTouches K (pre ++ post) = before (pumpTouches K pre).1 (pumpTouches K post) := by
  induction pre using rounds_induction with
  | nil => rfl
  | stop r rest hr =>
    rw [position_stop rest hr] at h
    cases h
  | quit r rest hr =>
    rw [position_quit rest hr] at h
    cases h
  | text r rest c hr hetx hesc ih =>
    rw [position_text rest hr hetx hesc] at h
    rw [List.cons_append, pumpTouches_text K _ hr hetx hesc, pumpTouches_text K _ hr hetx hesc, ih h,
      before_before]
    rfl
  -- the bytes end within a sequence, which is not at the top of the loop
  | esc r hr =>
    rw [position_esc hr] at h
    cases h
  | lone r r₂ rest hr hr₂ ih =>
    rw [position_after_esc rest hr (by rw [hr₂]; simp)] at h
    rw [List.cons_append, List.cons_append, pumpTouches_lone K _ hr hr₂, pumpTouches_lone K _ hr hr₂,
      ih h, before_before]
    rfl
  | alt r r₂ rest c hr hr₂ hc ih =>
    rw [position_after_esc rest hr (by rw [hr₂]; simpa using hc)] at h
    rw [List.cons_append, List.cons_append, pumpTouches_alt K _ hr hr₂ hc,
      pumpTouches_alt K _ hr hr₂ hc, ih h, before_before]
    rfl
  | csiEnd r r₂ hr hr₂ =>
    rw [position_csi_end hr hr₂] at h
    cases h
  | csi r r₂ r₃ rest hr hr₂ ih =>
    rw [position_csi r₃ rest hr hr₂] at h
    rw [List.cons_append, List.cons_append, List.cons_append, pumpTouches_csi K _ _ hr hr₂,
      pumpTouches_csi K _ _ hr hr₂, ih h, before_before]
    rfl

/-- The loop waits after `ESC` where the last answer is an `ESC` read at its top, and after `ESC [`
where the last two are. -/
def Cut (pre : List Read) : Prop :=
  (position pre = some .esc → ∃ pre' r, pre = pre' ++ [r] ∧ position pre' = some .top ∧
    r.byte = some ESC) ∧
  (position pre = some .csi → ∃ pre' r r₂, pre = pre' ++ [r, r₂] ∧ position pre' = some .top ∧
    r.byte = some ESC ∧ r₂.byte = some '['.toUInt8)

/-- A whole round comes first. -/
theorem cut_append (round : List Read) (h : ∀ rest, position (round ++ rest) = position rest)
    {rest : List Read} (hrest : Cut rest) : Cut (round ++ rest) := by
  unfold Cut
  rw [h]
  constructor
  · intro hpos
    obtain ⟨pre', r, rfl, htop, hr⟩ := hrest.1 hpos
    exact ⟨round ++ pre', r, (List.append_assoc round pre' _).symm, by rw [h, htop], hr⟩
  · intro hpos
    obtain ⟨pre', r, r₂, rfl, htop, hr⟩ := hrest.2 hpos
    exact ⟨round ++ pre', r, r₂, (List.append_assoc round pre' _).symm, by rw [h, htop], hr⟩

theorem cut (pre : List Read) : Cut pre := by
  induction pre using rounds_induction with
  | nil => exact ⟨fun h => (nomatch h), fun h => (nomatch h)⟩
  | stop r rest hr => simp [Cut, position_stop rest hr]
  | quit r rest hr => simp [Cut, position_quit rest hr]
  | text r rest c hr hetx hesc ih =>
    apply cut_append [r] _ ih
    exact fun rest => position_text rest hr hetx hesc
  | esc r hr =>
    unfold Cut
    rw [position_esc hr]
    exact ⟨fun _ => ⟨[], r, rfl, rfl, hr⟩, fun h => (nomatch h)⟩
  | lone r r₂ rest hr hr₂ ih =>
    apply cut_append [r, r₂] _ ih
    exact fun rest => position_after_esc rest hr (by rw [hr₂]; simp)
  | alt r r₂ rest c hr hr₂ hc ih =>
    apply cut_append [r, r₂] _ ih
    exact fun rest => position_after_esc rest hr (by rw [hr₂]; simpa using hc)
  | csiEnd r r₂ hr hr₂ =>
    unfold Cut
    rw [position_csi_end hr hr₂]
    exact ⟨fun h => (nomatch h), fun _ => ⟨[], r, r₂, rfl, rfl, hr, hr₂⟩⟩
  | csi r r₂ r₃ rest hr hr₂ ih =>
    apply cut_append [r, r₂, r₃] _ ih
    exact fun rest => position_csi r₃ rest hr hr₂

/-! ## Control sequences -/

/-- `ESC [` with parameter bytes, intermediate bytes and a final byte. -/
structure ControlSequence where
  params : List UInt8
  inters : List UInt8
  final : UInt8
  params_range : ∀ b ∈ params, 0x30 ≤ b ∧ b ≤ 0x3f
  inters_range : ∀ b ∈ inters, 0x20 ≤ b ∧ b ≤ 0x2f
  final_range : 0x40 ≤ final ∧ final ≤ 0x7e

namespace ControlSequence

/-- The bytes after `ESC [`. -/
def body (q : ControlSequence) : List UInt8 := q.params ++ (q.inters ++ [q.final])

def bytes (q : ControlSequence) : List UInt8 := ESC :: '['.toUInt8 :: q.body

/-- The arrow it stands for: `ESC [ A` to `ESC [ D`. -/
def arrow (K : KeyCodes) (q : ControlSequence) : Option UInt8 :=
  if q.body = ['A'.toUInt8] then some K.KEY_UPARROW
  else if q.body = ['B'.toUInt8] then some K.KEY_DOWNARROW
  else if q.body = ['C'.toUInt8] then some K.KEY_RIGHTARROW
  else if q.body = ['D'.toUInt8] then some K.KEY_LEFTARROW
  else none

theorem body_range (q : ControlSequence) : ∀ b ∈ q.body, 0x20 ≤ b ∧ b ≤ 0x7e := by
  intro b hb
  rcases List.mem_append.mp hb with hparam | hrest
  · have h := q.params_range b hparam
    exact ⟨UInt8.le_trans (by decide) h.1, UInt8.le_trans h.2 (by decide)⟩
  · rcases List.mem_append.mp hrest with hinter | hfinal
    · have h := q.inters_range b hinter
      exact ⟨h.1, UInt8.le_trans h.2 (by decide)⟩
    · rw [List.mem_singleton.mp hfinal]
      exact ⟨UInt8.le_trans (by decide) q.final_range.1, q.final_range.2⟩

/-- A body of more than one byte starts with a parameter or an intermediate. -/
theorem head_range (q : ControlSequence) {b c : UInt8} {rest : List UInt8}
    (h : q.body = b :: c :: rest) : b ≤ 0x3f := by
  unfold body at h
  cases hparams : q.params with
  | cons p ps =>
    rw [hparams] at h
    obtain ⟨rfl, -⟩ := List.cons.inj h
    exact (q.params_range p (by rw [hparams]; exact List.mem_cons_self)).2
  | nil =>
    cases hinters : q.inters with
    | cons i is =>
      rw [hparams, hinters] at h
      obtain ⟨rfl, -⟩ := List.cons.inj h
      exact UInt8.le_trans (q.inters_range i (by rw [hinters]; exact List.mem_cons_self)).2 (by decide)
    | nil =>
      rw [hparams, hinters] at h
      simp at h

end ControlSequence

/-- The answers bring the bytes of the sequence, each in time. -/
def Brings (seq : List Read) (q : ControlSequence) : Prop := seq.map Read.byte = q.bytes.map some

section Recognised

variable (K : KeyCodes)

/-- An arrow leaves its key, any other sequence nothing, and what follows is read as if the
sequence had not been there. -/
def Recognised (q : ControlSequence) (pre seq post : List Read) : Prop :=
  (∀ k, q.arrow K = some k → ∃ t, pumpTouches K (pre ++ (seq ++ post))
    = before ((pumpTouches K pre).1 ++ [(k, t)]) (pumpTouches K post)) ∧
  (q.arrow K = none →
    pumpTouches K (pre ++ (seq ++ post)) = pumpTouches K (pre ++ post))

/-- Nothing follows the first byte after `ESC [`, or nothing that is a key as typed text. -/
def Silent (q : ControlSequence) : Prop := ∀ b ∈ q.body.tail, mapKey K b = 0

/-- The keys of typed text. -/
def typed (reads : List Read) : List (UInt8 × ℕ) :=
  reads.flatMap fun r => keyAt (mapKey K (r.byte.getD 0)) r.time

/-- Printable bytes at the top of the loop. -/
theorem pumpTouches_typed {reads : List Read} {bytes : List UInt8}
    (h : reads.map Read.byte = bytes.map some) (hrange : ∀ b ∈ bytes, 0x20 ≤ b)
    (post : List Read) :
    pumpTouches K (reads ++ post) = before (typed K reads) (pumpTouches K post) := by
  induction reads generalizing bytes with
  | nil => rfl
  | cons r reads ih =>
    cases bytes with
    | nil => simp at h
    | cons b bytes =>
      obtain ⟨hr, hrest⟩ := List.cons.inj h
      have hb : 0x20 ≤ b := hrange b List.mem_cons_self
      have hetx : b ≠ ETX := by
        rintro rfl
        exact absurd hb (by decide)
      have hesc : b ≠ ESC := by
        rintro rfl
        exact absurd hb (by decide)
      rw [List.cons_append, pumpTouches_text K _ hr hetx hesc,
        ih hrest fun c hc => hrange c (List.mem_cons_of_mem _ hc), before_before]
      simp [typed, hr]

theorem typed_eq_nil {reads : List Read} {bytes : List UInt8}
    (h : reads.map Read.byte = bytes.map some) :
    typed K reads = [] ↔ ∀ b ∈ bytes, mapKey K b = 0 := by
  induction reads generalizing bytes with
  | nil =>
    cases bytes with
    | nil => simp [typed]
    | cons b bytes => simp at h
  | cons r reads ih =>
    cases bytes with
    | nil => simp at h
    | cons b bytes =>
      obtain ⟨hr, hrest⟩ := List.cons.inj h
      have hr' : r.byte = some b := hr
      have hcons : typed K (r :: reads) = keyAt (mapKey K b) r.time ++ typed K reads := by
        simp [typed, hr']
      rw [hcons, List.append_eq_nil_iff, ih hrest, List.forall_mem_cons]
      simp [keyAt]

/-- The reads of a sequence one by one. -/
theorem brings_cases {seq : List Read} {q : ControlSequence} (h : Brings seq q) :
    ∃ r r₂ r₃ rs b tail, seq = r :: r₂ :: r₃ :: rs ∧ r.byte = some ESC ∧
      r₂.byte = some '['.toUInt8 ∧ q.body = b :: tail ∧ r₃.byte = some b ∧
      rs.map Read.byte = tail.map some := by
  obtain ⟨b, tail, hbody⟩ : ∃ b tail, q.body = b :: tail := by
    apply List.exists_cons_of_ne_nil
    simp [ControlSequence.body]
  unfold Brings ControlSequence.bytes at h
  rw [hbody] at h
  match seq, h with
  | [], h | [_], h | [_, _], h => simp at h
  | r :: r₂ :: r₃ :: rs, h =>
    simp only [List.map_cons, List.cons.injEq] at h
    obtain ⟨hr, hr₂, hr₃, hrs⟩ := h
    exact ⟨r, r₂, r₃, rs, b, tail, rfl, hr, hr₂, hbody, hr₃, hrs⟩

theorem keyCodes_ne_zero {k : UInt8}
    (h : k ∈ [K.KEY_UPARROW, K.KEY_DOWNARROW, K.KEY_LEFTARROW, K.KEY_RIGHTARROW, K.KEY_STRAFE_L,
      K.KEY_STRAFE_R, K.KEY_FIRE, K.KEY_USE, K.KEY_RSHIFT, K.KEY_ENTER, K.KEY_TAB, K.KEY_ESCAPE]) :
    k ≠ 0 := by
  rintro rfl
  exact (List.nodup_cons.mp K.distinct).1 h

/-- What the letters are as typed text. -/
theorem strafe_ne_arrow :
    K.KEY_STRAFE_L ≠ K.KEY_UPARROW ∧ K.KEY_STRAFE_R ≠ K.KEY_LEFTARROW := by
  have hdistinct := K.distinct
  grind

/-- The byte after `ESC [` of a sequence of one byte. -/
theorem keyAt_arrowKey {q : ControlSequence} {b : UInt8} (h : q.body = [b]) (t : ℕ) :
    keyAt (arrowKey K (some b)) t = (q.arrow K).toList.map fun k => (k, t) := by
  have hcode : ∀ k, k ≠ 0 → keyAt k t = (some k).toList.map fun k => (k, t) := by
    intro k hk
    rw [keyAt, if_pos hk]
    rfl
  unfold arrowKey ControlSequence.arrow
  rw [h]
  simp only [Option.some.injEq, List.cons.injEq, and_true]
  split_ifs
  · exact hcode _ (keyCodes_ne_zero K (by simp))
  · exact hcode _ (keyCodes_ne_zero K (by simp))
  · exact hcode _ (keyCodes_ne_zero K (by simp))
  · exact hcode _ (keyCodes_ne_zero K (by simp))
  · rfl

/-- The byte after `ESC [` of a longer sequence. -/
theorem arrowKey_of_head {b : UInt8} (h : b ≤ 0x3f) : arrowKey K (some b) = 0 := by
  have hletter : ∀ c ∈ ['A'.toUInt8, 'B'.toUInt8, 'C'.toUInt8, 'D'.toUInt8], some b ≠ some c := by
    intro c hc heq
    obtain rfl := Option.some.inj heq
    revert hc h
    simp only [List.mem_cons, List.not_mem_nil, or_false]
    rintro h (rfl | rfl | rfl | rfl) <;> exact absurd h (by decide)
  rw [arrowKey, if_neg (hletter _ (by simp)), if_neg (hletter _ (by simp)),
    if_neg (hletter _ (by simp)), if_neg (hletter _ (by simp))]

theorem arrow_of_long {q : ControlSequence} {b c : UInt8} {rest : List UInt8}
    (h : q.body = b :: c :: rest) : q.arrow K = none := by
  rw [ControlSequence.arrow, h]
  simp

/-- **A sequence at the top of the loop**: the key of an arrow, then the rest as typed text. -/
theorem pumpTouches_sequence {q : ControlSequence} {seq : List Read} (h : Brings seq q) :
    ∃ t l, (∀ post, pumpTouches K (seq ++ post)
        = before ((q.arrow K).toList.map (fun k => (k, t)) ++ l) (pumpTouches K post)) ∧
      (l = [] ↔ Silent K q) ∧ ((q.arrow K).isSome → l = []) := by
  obtain ⟨r, r₂, r₃, rs, b, tail, rfl, hr, hr₂, hbody, hr₃, hrs⟩ := brings_cases h
  have hrange : ∀ c ∈ tail, 0x20 ≤ c := by
    intro c hc
    exact (q.body_range c (by rw [hbody]; exact List.mem_cons_of_mem _ hc)).1
  have hkey : keyAt (arrowKey K r₃.byte) r₃.time
      = (q.arrow K).toList.map fun k => (k, r₃.time) := by
    rw [hr₃]
    cases tail with
    | nil => exact keyAt_arrowKey K hbody r₃.time
    | cons c tail =>
      rw [arrow_of_long K hbody, arrowKey_of_head K (q.head_range hbody)]
      rfl
  refine ⟨r₃.time, typed K rs, fun post => ?_, ?_, fun harrow => ?_⟩
  · rw [List.cons_append, List.cons_append, List.cons_append, pumpTouches_csi K _ _ hr hr₂, hkey,
      pumpTouches_typed K hrs hrange, before_before]
  · rw [typed_eq_nil K hrs, Silent, hbody, List.tail_cons]
  · cases tail with
    | nil =>
      rw [List.map_eq_nil_iff.mp hrs]
      rfl
    | cons c tail =>
      rw [arrow_of_long K hbody] at harrow
      exact absurd harrow (by simp)

/-- At the top of the loop a sequence is recognised exactly when its rest is silent. -/
theorem recognised_iff_silent {q : ControlSequence} {pre seq : List Read} (hseq : Brings seq q)
    (hpre : position pre = some .top) (post : List Read) :
    Recognised K q pre seq post ↔ Silent K q := by
  obtain ⟨t, l, hall, hl, harrow⟩ := pumpTouches_sequence K hseq
  unfold Recognised
  rw [pumpTouches_append K hpre, pumpTouches_append K hpre, hall post, before_before, ← hl]
  cases hq : q.arrow K with
  | some k =>
    have hnil : l = [] := harrow (by rw [hq]; rfl)
    refine ⟨fun _ => hnil, fun _ => ⟨fun k' hk' => ⟨t, ?_⟩, fun hnone => nomatch hnone⟩⟩
    obtain rfl := Option.some.inj hk'
    rw [hnil]
    rfl
  | none =>
    constructor
    · intro h
      have heq := congrArg Prod.fst (h.2 rfl)
      simpa [before] using heq
    · rintro rfl
      refine ⟨fun k hk => (nomatch hk), fun _ => ?_⟩
      simp

/-- The text of a sequence whose `ESC` has been taken. -/
theorem pumpTouches_body {q : ControlSequence} {r₀ : Read} {rest : List Read}
    (hseq : Brings (r₀ :: rest) q) (post : List Read) :
    pumpTouches K (rest ++ post) = before (typed K rest) (pumpTouches K post) := by
  obtain ⟨-, hrest⟩ := List.cons.inj hseq
  apply pumpTouches_typed K hrest
  intro c hc
  rcases List.mem_cons.mp hc with rfl | hc
  · decide
  · exact (q.body_range c hc).1

theorem esc_of_brings {q : ControlSequence} {r₀ : Read} {rest : List Read}
    (hseq : Brings (r₀ :: rest) q) : r₀.byte = some ESC := (List.cons.inj hseq).1

/-- The text of an arrow is its one letter. -/
theorem typed_arrow {q : ControlSequence} {r₀ : Read} {rest : List Read} {k : UInt8}
    (hseq : Brings (r₀ :: rest) q) (hq : q.arrow K = some k) :
    ∃ b t, typed K rest = keyAt (mapKey K b) t ∧ mapKey K b ≠ k := by
  obtain ⟨_, r₁, r₃, rs, b, tail, heq, -, hr₁, hbody, hr₃, hrs⟩ := brings_cases hseq
  obtain ⟨rfl, rfl⟩ := List.cons.inj heq
  cases tail with
  -- the `switch` looks at the third byte only, and drops what stands behind it
  | cons c tail =>
    rw [arrow_of_long K hbody] at hq
    cases hq
  | nil =>
    refine ⟨b, r₃.time, ?_, ?_⟩
    · have hbracket : keyAt (mapKey K '['.toUInt8) r₁.time = [] := rfl
      rw [List.map_eq_nil_iff.mp hrs]
      simp only [typed, List.flatMap_cons, hr₁, hr₃, Option.getD_some, hbracket, List.nil_append,
        List.flatMap_nil, List.append_nil]
    · unfold ControlSequence.arrow at hq
      rw [hbody] at hq
      split_ifs at hq with hA hB hC hD
      · obtain ⟨rfl, -⟩ := List.cons.inj hA
        obtain rfl := Option.some.inj hq
        exact (strafe_ne_arrow K).1
      · obtain ⟨rfl, -⟩ := List.cons.inj hB
        obtain rfl := Option.some.inj hq
        exact (keyCodes_ne_zero K (by simp)).symm
      · obtain ⟨rfl, -⟩ := List.cons.inj hC
        obtain rfl := Option.some.inj hq
        exact (keyCodes_ne_zero K (by simp)).symm
      · obtain ⟨rfl, -⟩ := List.cons.inj hD
        obtain rfl := Option.some.inj hq
        exact (strafe_ne_arrow K).2

theorem length_keyAt_le (k : UInt8) (t : ℕ) : (keyAt k t).length ≤ 1 := by
  unfold keyAt
  split_ifs <;> simp

/-- An `ESC` that waits for its next byte takes the sequence's own. -/
theorem not_recognised_esc {q : ControlSequence} {pre seq : List Read} (hseq : Brings seq q)
    (hpre : position pre = some .esc) : ∃ post, ¬ Recognised K q pre seq post := by
  obtain ⟨pre, r, rfl, htop, hr⟩ := (cut pre).1 hpre
  cases seq with
  | nil => cases hseq
  | cons r₀ rest =>
    have hescape : keyAt K.KEY_ESCAPE r.time = [(K.KEY_ESCAPE, r.time)] := by
      rw [keyAt, if_pos (keyCodes_ne_zero K (by simp))]
    have halone : pumpTouches K (pre ++ [r])
        = ((pumpTouches K pre).1 ++ [(K.KEY_ESCAPE, r.time)], .returned) := by
      rw [pumpTouches_append K htop, pumpTouches_esc K hr, hescape]
      rfl
    -- with the sequence, all its text is typed
    have hwith : ∀ post, (pumpTouches K (pre ++ [r] ++ (r₀ :: rest ++ post))).1
        = (pumpTouches K pre).1 ++ (typed K rest ++ (pumpTouches K post).1) := by
      intro post
      have halt : keyAt (mapKey K ESC) r₀.time = [] := rfl
      rw [List.append_assoc, pumpTouches_append K htop, List.singleton_append, List.cons_append,
        pumpTouches_alt K _ hr (esc_of_brings hseq) (by decide), halt, pumpTouches_body K hseq]
      rfl
    cases hq : q.arrow K with
    | some k =>
      refine ⟨[], fun h => ?_⟩
      obtain ⟨t, ht⟩ := h.1 k hq
      have hlen := congrArg (fun p => p.1.length) ht
      simp only [hwith, halone, before, List.length_append, pumpTouches_nil, List.length_nil,
        List.length_singleton] at hlen
      obtain ⟨b, t', hletter, -⟩ := typed_arrow K hseq hq
      have hrest := length_keyAt_le (mapKey K b) t'
      rw [← hletter] at hrest
      omega
    | none =>
      by_cases hsilent : typed K rest = []
      · refine ⟨[], fun h => ?_⟩
        have heq := congrArg Prod.fst (h.2 hq)
        rw [hwith, List.append_nil, halone, hsilent] at heq
        simp [pumpTouches_nil] at heq
      · -- a following `x` would have been taken by the `ESC`
        refine ⟨[⟨0, some 'x'.toUInt8⟩], fun h => hsilent ?_⟩
        have hx : (pumpTouches K [⟨0, some 'x'.toUInt8⟩]).1 = [] := rfl
        have hafter : (pumpTouches K (pre ++ [r] ++ [⟨0, some 'x'.toUInt8⟩])).1
            = (pumpTouches K pre).1 := by
          rw [List.append_assoc, pumpTouches_append K htop, List.singleton_append,
            pumpTouches_alt K _ hr rfl (by decide)]
          exact List.append_nil _
        have heq := congrArg Prod.fst (h.2 hq)
        rw [hwith, hafter, hx] at heq
        simpa using heq

/-- So does an `ESC [`. -/
theorem not_recognised_csi {q : ControlSequence} {pre seq : List Read} (hseq : Brings seq q)
    (hpre : position pre = some .csi) : ∃ post, ¬ Recognised K q pre seq post := by
  obtain ⟨pre, r, r₂, rfl, htop, hr, hr₂⟩ := (cut pre).2 hpre
  cases seq with
  | nil => cases hseq
  | cons r₀ rest =>
    have halone : pumpTouches K (pre ++ [r, r₂]) = ((pumpTouches K pre).1, .returned) := by
      rw [pumpTouches_append K htop, pumpTouches_csi_end K hr hr₂]
      exact congrArg (·, PumpEnd.returned) (List.append_nil _)
    have hwith : ∀ post, (pumpTouches K (pre ++ [r, r₂] ++ (r₀ :: rest ++ post))).1
        = (pumpTouches K pre).1 ++ (typed K rest ++ (pumpTouches K post).1) := by
      intro post
      have hthird : keyAt (arrowKey K r₀.byte) r₀.time = [] := by
        rw [esc_of_brings hseq]
        rfl
      rw [List.append_assoc, pumpTouches_append K htop, List.cons_append, List.singleton_append,
        List.cons_append, pumpTouches_csi K _ _ hr hr₂, hthird, pumpTouches_body K hseq]
      rfl
    cases hq : q.arrow K with
    | some k =>
      refine ⟨[], fun h => ?_⟩
      obtain ⟨t, ht⟩ := h.1 k hq
      obtain ⟨b, t', hletter, hne⟩ := typed_arrow K hseq hq
      have heq := congrArg Prod.fst ht
      rw [hwith, halone, hletter] at heq
      simp only [before, pumpTouches_nil, List.append_nil, List.append_cancel_left_eq] at heq
      unfold keyAt at heq
      split_ifs at heq
      exact hne (Prod.mk.inj (List.cons.inj heq).1).1
    | none =>
      -- a following `A` would have been the arrow
      refine ⟨[⟨0, some 'A'.toUInt8⟩], fun h => ?_⟩
      have hup : keyAt K.KEY_UPARROW 0 = [(K.KEY_UPARROW, 0)] := by
        rw [keyAt, if_pos (keyCodes_ne_zero K (by simp))]
      have hstrafe : keyAt K.KEY_STRAFE_L 0 = [(K.KEY_STRAFE_L, 0)] := by
        rw [keyAt, if_pos (keyCodes_ne_zero K (by simp))]
      have hA : (pumpTouches K [⟨0, some 'A'.toUInt8⟩]).1 = [(K.KEY_STRAFE_L, 0)] := by
        rw [← hstrafe, pumpTouches_text K [] rfl (by decide) (by decide)]
        exact List.append_nil _
      have hafter : (pumpTouches K (pre ++ [r, r₂] ++ [⟨0, some 'A'.toUInt8⟩])).1
          = (pumpTouches K pre).1 ++ [(K.KEY_UPARROW, 0)] := by
        rw [← hup, List.append_assoc, pumpTouches_append K htop, List.cons_append,
          List.singleton_append, pumpTouches_csi K _ _ hr hr₂]
        exact congrArg _ (List.append_nil _)
      have heq := congrArg Prod.fst (h.2 hq)
      rw [hwith, hafter, hA] at heq
      have hcancel := List.append_cancel_left heq
      cases htyped : typed K rest with
      | nil =>
        rw [htyped] at hcancel
        exact (strafe_ne_arrow K).1 (Prod.mk.inj (List.cons.inj hcancel).1).1
      | cons p l =>
        rw [htyped] at hcancel
        simp at hcancel

/-- **Control sequences.**  In a call that reads on, a sequence leaves the key of an arrow and
nothing else, whatever follows, exactly when its `ESC` is read at the top of the loop and none of
the bytes after the first behind `ESC [` is a key. -/
theorem recognised_iff {q : ControlSequence} {pre seq : List Read} (hseq : Brings seq q)
    (hpre : position pre ≠ none) :
    ((∀ post, Recognised K q pre seq post) ↔ position pre = some .top ∧ Silent K q) ∧
      (position pre = some .top → ∀ post, (Recognised K q pre seq post ↔ Silent K q)) := by
  refine ⟨⟨fun hall => ?_, fun h post => ?_⟩, fun htop => recognised_iff_silent K hseq htop⟩
  · cases hpos : position pre with
    | none => exact absurd hpos hpre
    | some place =>
      cases place with
      | top => exact ⟨rfl, (recognised_iff_silent K hseq hpos []).mp (hall [])⟩
      | esc =>
        obtain ⟨post, hnot⟩ := not_recognised_esc K hseq hpos
        exact absurd (hall post) hnot
      | csi =>
        obtain ⟨post, hnot⟩ := not_recognised_csi K hseq hpos
        exact absurd (hall post) hnot
  · exact (recognised_iff_silent K hseq h.1 post).mpr h.2

end Recognised

/-- `doomkeys.h`. -/
def doomKeys : KeyCodes where
  KEY_UPARROW := 0xad
  KEY_DOWNARROW := 0xaf
  KEY_LEFTARROW := 0xac
  KEY_RIGHTARROW := 0xae
  KEY_STRAFE_L := 0xa0
  KEY_STRAFE_R := 0xa1
  KEY_FIRE := 0xa3
  KEY_USE := 0xa2
  KEY_RSHIFT := 0xb6
  KEY_ENTER := 13
  KEY_TAB := 9
  KEY_ESCAPE := 27
  distinct := by decide

/-- Bytes that are all there. -/
def atOnce (bytes : List UInt8) : List Read := bytes.map fun b => ⟨0, some b⟩

/-- `ESC [ 3 ~`, the delete key. -/
def deleteKey : ControlSequence where
  params := ['3'.toUInt8]
  inters := []
  final := '~'.toUInt8
  params_range := by decide +kernel
  inters_range := by decide +kernel
  final_range := by decide +kernel

/-- `ESC [ 1 ; 5 A`, the up arrow with control. -/
def controlUp : ControlSequence where
  params := ['1'.toUInt8, ';'.toUInt8, '5'.toUInt8]
  inters := []
  final := 'A'.toUInt8
  params_range := by decide +kernel
  inters_range := by decide +kernel
  final_range := by decide +kernel

/-- The delete key between two `w`. -/
theorem recognised_deleteKey :
    Recognised doomKeys deleteKey (atOnce ['w'.toUInt8]) (atOnce deleteKey.bytes)
      (atOnce ['w'.toUInt8]) := by
  have hseq : Brings (atOnce deleteKey.bytes) deleteKey := by unfold Brings; decide
  have hpre : position (atOnce ['w'.toUInt8]) = some .top := by decide
  have hsilent : Silent doomKeys deleteKey := by unfold Silent; decide +kernel
  exact (recognised_iff doomKeys hseq (by rw [hpre]; simp)).1.mpr ⟨hpre, hsilent⟩ _

/-- Control and the up arrow select a weapon and step to the left. -/
theorem not_recognised_controlUp :
    pumpTouches doomKeys (atOnce controlUp.bytes)
        = ([('5'.toUInt8, 0), (doomKeys.KEY_STRAFE_L, 0)], .returned) ∧
      ¬ Recognised doomKeys controlUp [] (atOnce controlUp.bytes) [] := by
  have hrun : pumpTouches doomKeys (atOnce controlUp.bytes)
      = ([('5'.toUInt8, 0), (doomKeys.KEY_STRAFE_L, 0)], .returned) := by decide
  refine ⟨hrun, fun h => ?_⟩
  have hnothing := h.2 (by decide)
  rw [List.nil_append, List.append_nil, hrun] at hnothing
  exact absurd hnothing (by decide)

end OsMoap.Guest
