import OsMoap.Lib.Slices
import Mathlib.Data.Char
import Mathlib.Data.List.Infix
import Mathlib.Data.List.Lex

/-!
# Python Text as the Packers Use It

The string side of the packers (`tools/pack_rom.py`, `tools/pack_pkg.py`,
`tools/pack_repo.py`): a `str` is a list of characters, `bytes` a list of octets.

- `splitlines` and `joinLines` are what the cards are read and written with
- `b64encode` is the standard alphabet of RFC 4648, with padding
- `Json` and `dumps` are `json.dumps(..., separators=(',', ':'))` with its default
  `ensure_ascii`

Everything `b64encode` and `dumps` produce is printable ASCII (`b64encode_printable`,
`dumps_printable`), so none of it holds a line break of `splitlines`.
-/

namespace OsMoap.Pack

/-- A Python `str`. -/
abbrev Text := List Char

/-- A Python `bytes`. -/
abbrev Bytes := List UInt8

/-! ## Line breaking -/

/-- The single-character line boundaries of `str.splitlines`. -/
def isLineBreak (c : Char) : Bool :=
  c.toNat ∈ [0x0a, 0x0b, 0x0c, 0x0d, 0x1c, 0x1d, 0x1e, 0x85, 0x2028, 0x2029]

/-- `str.splitlines()`: a final line needs no terminator, and `"\r\n"` is one boundary. -/
def splitlines : Text → List Text
  | [] => []
  | '\r' :: '\n' :: t => [] :: splitlines t
  | c :: t =>
    if isLineBreak c then [] :: splitlines t
    else match splitlines t with
      | [] => [[c]]
      | l :: ls => (c :: l) :: ls

/-- `'\n'.join(lines) + '\n'`. -/
def joinLines (lines : List Text) : Text :=
  ['\n'].intercalate lines ++ ['\n']

theorem joinLines_cons_cons (l l' : Text) (ls : List Text) :
    joinLines (l :: l' :: ls) = l ++ '\n' :: joinLines (l' :: ls) := by
  simp [joinLines, List.intercalate, List.intersperse]

theorem splitlines_newline (t : Text) : splitlines ('\n' :: t) = [] :: splitlines t := by
  rw [splitlines]
  · rfl
  · intro _ h
    exact absurd h (by decide)

/-- A line without breaks is read back whole at its newline. -/
theorem splitlines_append_newline {l : Text} (hl : ∀ c ∈ l, isLineBreak c = false) (t : Text) :
    splitlines (l ++ '\n' :: t) = l :: splitlines t := by
  induction l with
  | nil => exact splitlines_newline t
  | cons c l ih =>
    have hc : isLineBreak c = false := hl c List.mem_cons_self
    have hcr : c ≠ '\r' := by
      rintro rfl
      exact absurd hc (by decide)
    rw [List.cons_append, splitlines]
    · rw [hc, ih fun d hd => hl d (List.mem_cons_of_mem _ hd)]
      rfl
    · intro _ h
      exact absurd h hcr

/-- Joined lines are split back to the same lines. -/
theorem splitlines_joinLines {ls : List Text} (hne : ls ≠ [])
    (hls : ∀ l ∈ ls, ∀ c ∈ l, isLineBreak c = false) : splitlines (joinLines ls) = ls := by
  induction ls with
  | nil => exact absurd rfl hne
  | cons l ls ih =>
    cases ls with
    | nil =>
      have hone : joinLines [l] = l ++ ['\n'] := by simp [joinLines]
      rw [hone, splitlines_append_newline (hls l (by simp))]
      rfl
    | cons l' ls =>
      rw [joinLines_cons_cons, splitlines_append_newline (hls l (by simp)),
        ih (by simp) fun m hm => hls m (List.mem_cons_of_mem _ hm)]

/-- The size of the written text: every line and one newline each. -/
theorem length_joinLines {ls : List Text} (hne : ls ≠ []) :
    (joinLines ls).length = (ls.map fun l => l.length + 1).sum := by
  induction ls with
  | nil => exact absurd rfl hne
  | cons l ls ih =>
    cases ls with
    | nil => simp [joinLines]
    | cons l' ls =>
      rw [joinLines_cons_cons, List.length_append, List.length_cons, ih (by simp)]
      simp only [List.map_cons, List.sum_cons]
      omega

/-! ## Printable ASCII -/

/-- Printable ASCII, `' '` to `'~'`. -/
def isPrintable (c : Char) : Bool :=
  0x20 ≤ c.toNat && c.toNat ≤ 0x7e

theorem isLineBreak_of_isPrintable {c : Char} (h : isPrintable c = true) :
    isLineBreak c = false := by
  simp only [isPrintable, Bool.and_eq_true, decide_eq_true_eq] at h
  simp only [isLineBreak, decide_eq_false_iff_not, List.mem_cons, List.not_mem_nil, or_false]
  omega

theorem isPrintable_of_isDigit {c : Char} (h : c.isDigit = true) : isPrintable c = true := by
  simp only [Char.isDigit, Bool.and_eq_true, decide_eq_true_eq, UInt32.le_iff_toNat_le] at h
  simp only [isPrintable, Bool.and_eq_true, decide_eq_true_eq, Char.toNat]
  have hzero : '0'.val.toNat = 48 := rfl
  have hnine : '9'.val.toNat = 57 := rfl
  omega

/-! ## Decimal numbers -/

/-- `str(n)`. -/
def decimal (n : ℕ) : Text := Nat.toDigits 10 n

/-- `f'{n:03d}'`: at least three digits, padded with zeros. -/
def decimal03 (n : ℕ) : Text :=
  List.replicate (3 - (decimal n).length) '0' ++ decimal n

theorem decimal_of_lt_ten {n : ℕ} (h : n < 10) : decimal n = [Nat.digitChar n] :=
  Nat.toDigits_of_lt_base h

/-- The last digit comes after those of the quotient. -/
theorem decimal_of_ten_le {n : ℕ} (h : 10 ≤ n) :
    decimal n = decimal (n / 10) ++ [Nat.digitChar (n % 10)] :=
  Nat.toDigits_of_base_le (by decide) h

theorem decimal_printable (n : ℕ) : ∀ c ∈ decimal n, isPrintable c = true :=
  fun _ hc => isPrintable_of_isDigit (Nat.isDigit_of_mem_toDigits (by decide) (by decide) hc)

theorem decimal_injective : Function.Injective decimal := by
  intro m n h
  have hm : Nat.ofDigitChars 10 (decimal m) 0 = m := Nat.ofDigitChars_ten_toDigits
  have hn : Nat.ofDigitChars 10 (decimal n) 0 = n := Nat.ofDigitChars_ten_toDigits
  rw [← hm, h, hn]

/-- Padding loses nothing: the number is read back from its digits. -/
theorem ofDigitChars_decimal03 (n : ℕ) : Nat.ofDigitChars 10 (decimal03 n) 0 = n := by
  rw [decimal03, Nat.ofDigitChars_append, Nat.ofDigitChars_replicate_zero, Nat.mul_zero, decimal,
    Nat.ofDigitChars_ten_toDigits]

theorem decimal03_injective : Function.Injective decimal03 := by
  intro m n h
  rw [← ofDigitChars_decimal03 m, h, ofDigitChars_decimal03]

/-! ## Base64 -/

/-- The character for a six-bit value. -/
def b64Char (v : ℕ) : Char :=
  if v < 26 then Char.ofNat (65 + v)
  else if v < 52 then Char.ofNat (97 + (v - 26))
  else if v < 62 then Char.ofNat (48 + (v - 52))
  else if v = 62 then '+' else '/'

/-- `base64.b64encode(b).decode('ascii')`. -/
def b64encode : Bytes → Text
  | [] => []
  | [a] =>
    let v := a.toNat * 16
    [b64Char (v / 64), b64Char (v % 64), '=', '=']
  | [a, b] =>
    let v := (a.toNat * 256 + b.toNat) * 4
    [b64Char (v / 4096), b64Char (v / 64 % 64), b64Char (v % 64), '=']
  | a :: b :: c :: rest =>
    let v := (a.toNat * 256 + b.toNat) * 256 + c.toNat
    b64Char (v / 262144) :: b64Char (v / 4096 % 64) :: b64Char (v / 64 % 64) ::
      b64Char (v % 64) :: b64encode rest

theorem b64Char_printable (v : ℕ) : isPrintable (b64Char v) = true := by
  have hlow : ∀ u < 64, isPrintable (b64Char u) = true := by decide
  by_cases hv : v < 64
  · exact hlow v hv
  · have hslash : b64Char v = '/' := by
      simp only [b64Char]
      split_ifs <;> first | rfl | omega
    rw [hslash]
    decide

theorem b64encode_printable (b : Bytes) : ∀ c ∈ b64encode b, isPrintable c = true := by
  have heq : isPrintable '=' = true := by decide
  fun_induction b64encode b with
  | case1 => simp
  | case2 a v => simp [b64Char_printable, heq]
  | case3 a b v => simp [b64Char_printable, heq]
  | case4 a b c rest v ih => simpa [b64Char_printable] using ih

/-- The six-bit value of a character of the alphabet. -/
def b64Value (c : Char) : Option ℕ :=
  let n := c.toNat
  if 65 ≤ n ∧ n < 91 then some (n - 65)
  else if 97 ≤ n ∧ n < 123 then some (n - 97 + 26)
  else if 48 ≤ n ∧ n < 58 then some (n - 48 + 52)
  else if c = '+' then some 62
  else if c = '/' then some 63
  else none

/-- `base64.b64decode` of padded text in groups of four; `none` is `binascii.Error`. -/
def b64decode : Text → Option Bytes
  | [] => some []
  | w :: x :: y :: z :: rest => do
    let w ← b64Value w
    let x ← b64Value x
    if y = '=' then
      if z = '=' ∧ rest = [] then some [UInt8.ofNat ((w * 64 + x) / 16)] else none
    else
      let y ← b64Value y
      let v := (w * 64 + x) * 64 + y
      if z = '=' then
        if rest = [] then some [UInt8.ofNat (v / 1024), UInt8.ofNat (v / 4)] else none
      else
        let z ← b64Value z
        let v := v * 64 + z
        let bytes ← b64decode rest
        some (UInt8.ofNat (v / 65536) :: UInt8.ofNat (v / 256) :: UInt8.ofNat v :: bytes)
  | _ => none

theorem b64Value_b64Char {v : ℕ} (hv : v < 64) : b64Value (b64Char v) = some v := by
  revert v
  decide

theorem b64Char_ne_pad {v : ℕ} (hv : v < 64) : b64Char v ≠ '=' := by
  intro h
  have hpad : b64Value '=' = none := by decide
  have hval := b64Value_b64Char hv
  rw [h, hpad] at hval
  exact absurd hval (by simp)

/-- The low octet of a number whose remainder is known. -/
private theorem ofNat_eq_of_mod {n : ℕ} {a : UInt8} (h : n % 256 = a.toNat) : UInt8.ofNat n = a := by
  rw [← UInt8.toNat_inj, UInt8.toNat_ofNat', h]

/-- Base64 is lossless. -/
theorem b64decode_b64encode (b : Bytes) : b64decode (b64encode b) = some b := by
  have hdiv : ∀ u, u % 64 < 64 := fun u => Nat.mod_lt u (by decide)
  -- three bytes at a time, and one or two at the end
  fun_induction b64encode b with
  | case1 => rfl
  | case2 a v =>
    have ha := a.toNat_lt
    have hv : v = a.toNat * 16 := rfl
    have hbyte : UInt8.ofNat ((v / 64 * 64 + v % 64) / 16) = a := ofNat_eq_of_mod (by omega)
    rw [b64decode, b64Value_b64Char (by omega), b64Value_b64Char (hdiv v)]
    simp [hbyte]
  | case3 a b v =>
    have ha := a.toNat_lt
    have hb := b.toNat_lt
    have hv : v = (a.toNat * 256 + b.toNat) * 4 := rfl
    have hjoin : (v / 4096 * 64 + v / 64 % 64) * 64 + v % 64 = v := by omega
    have hfst : UInt8.ofNat (v / 1024) = a := ofNat_eq_of_mod (by omega)
    have hsnd : UInt8.ofNat (v / 4) = b := ofNat_eq_of_mod (by omega)
    rw [b64decode, b64Value_b64Char (by omega), b64Value_b64Char (hdiv _),
      b64Value_b64Char (hdiv _)]
    simp [b64Char_ne_pad (hdiv v), hjoin, hfst, hsnd]
  | case4 a b c rest v ih =>
    have ha := a.toNat_lt
    have hb := b.toNat_lt
    have hc := c.toNat_lt
    have hv : v = (a.toNat * 256 + b.toNat) * 256 + c.toNat := rfl
    have hjoin : ((v / 262144 * 64 + v / 4096 % 64) * 64 + v / 64 % 64) * 64 + v % 64 = v := by
      omega
    have hfst : UInt8.ofNat (v / 65536) = a := ofNat_eq_of_mod (by omega)
    have hsnd : UInt8.ofNat (v / 256) = b := ofNat_eq_of_mod (by omega)
    have hthd : UInt8.ofNat v = c := ofNat_eq_of_mod (by omega)
    rw [b64decode, b64Value_b64Char (by omega), b64Value_b64Char (hdiv _),
      b64Value_b64Char (hdiv _), b64Value_b64Char (hdiv _)]
    simp only [Option.bind_eq_bind, Option.bind_some, if_neg (b64Char_ne_pad (hdiv _)), hjoin, ih,
      hfst, hsnd, hthd]

/-! ## JSON -/

/-- The JSON values the packers write: strings, counts, lists and dicts in insertion order. -/
inductive Json where
  | str (t : Text)
  | num (n : ℕ)
  | arr (items : List Json)
  | obj (fields : List (Text × Json))

mutual

def Json.decEq : (a b : Json) → Decidable (a = b)
  | .str s, .str t => decidable_of_iff (s = t) (by simp)
  | .num m, .num n => decidable_of_iff (m = n) (by simp)
  | .arr as, .arr bs =>
    have := Json.decEqItems as bs
    decidable_of_iff (as = bs) (by simp)
  | .obj as, .obj bs =>
    have := Json.decEqFields as bs
    decidable_of_iff (as = bs) (by simp)
  | .str _, .num _ | .str _, .arr _ | .str _, .obj _ | .num _, .str _ | .num _, .arr _
  | .num _, .obj _ | .arr _, .str _ | .arr _, .num _ | .arr _, .obj _ | .obj _, .str _
  | .obj _, .num _ | .obj _, .arr _ => .isFalse (by simp)

def Json.decEqItems : (as bs : List Json) → Decidable (as = bs)
  | [], [] => .isTrue rfl
  | a :: as, b :: bs =>
    have := Json.decEq a b
    have := Json.decEqItems as bs
    decidable_of_iff (a = b ∧ as = bs) (by simp)
  | [], _ :: _ | _ :: _, [] => .isFalse (by simp)

def Json.decEqFields : (as bs : List (Text × Json)) → Decidable (as = bs)
  | [], [] => .isTrue rfl
  | (k, a) :: as, (l, b) :: bs =>
    have := Json.decEq a b
    have := Json.decEqFields as bs
    decidable_of_iff ((k = l ∧ a = b) ∧ as = bs) (by simp)
  | [], _ :: _ | _ :: _, [] => .isFalse (by simp)

end

instance : DecidableEq Json := Json.decEq

/-- Four lower-case hexadecimal digits, `'\\u{0:04x}'`. -/
def escapeUnit (n : ℕ) : Text :=
  '\\' :: 'u' :: [n / 4096 % 16, n / 256 % 16, n / 16 % 16, n % 16].map Nat.digitChar

/-- `ensure_ascii` escaping of one character. -/
def escapeChar (c : Char) : Text :=
  if c = '"' then ['\\', '"']
  else if c = '\\' then ['\\', '\\']
  else if c = '\n' then ['\\', 'n']
  else if c = '\r' then ['\\', 'r']
  else if c = '\t' then ['\\', 't']
  else if c.toNat = 0x0c then ['\\', 'f']
  else if c.toNat = 0x08 then ['\\', 'b']
  else if isPrintable c then [c]
  else if c.toNat < 0x10000 then escapeUnit c.toNat
  else
    -- outside the basic plane: a surrogate pair
    let v := c.toNat - 0x10000
    escapeUnit (0xd800 + v / 0x400) ++ escapeUnit (0xdc00 + v % 0x400)

/-- A JSON string literal. -/
def quote (t : Text) : Text :=
  '"' :: (t.flatMap escapeChar ++ ['"'])

mutual

/-- `json.dumps(v, separators=(',', ':'))`. -/
def dumps : Json → Text
  | .str t => quote t
  | .num n => decimal n
  | .arr items => '[' :: (dumpsItems items ++ [']'])
  | .obj fields => '{' :: (dumpsFields fields ++ ['}'])

/-- The comma-separated items of a list. -/
def dumpsItems : List Json → Text
  | [] => []
  | [v] => dumps v
  | v :: v' :: vs => dumps v ++ ',' :: dumpsItems (v' :: vs)

/-- The comma-separated `key:value` pairs of a dict. -/
def dumpsFields : List (Text × Json) → Text
  | [] => []
  | [(k, v)] => quote k ++ ':' :: dumps v
  | (k, v) :: kv' :: kvs => quote k ++ ':' :: (dumps v ++ ',' :: dumpsFields (kv' :: kvs))

end

theorem escapeUnit_printable (n : ℕ) : ∀ c ∈ escapeUnit n, isPrintable c = true := by
  have hdigit : ∀ d < 16, isPrintable (Nat.digitChar d) = true := by decide
  intro c hc
  simp only [escapeUnit, List.map_cons, List.map_nil, List.mem_cons, List.not_mem_nil,
    or_false] at hc
  rcases hc with rfl | rfl | rfl | rfl | rfl | rfl
  · decide
  · decide
  all_goals exact hdigit _ (Nat.mod_lt _ (by decide))

theorem escapeChar_printable (c : Char) : ∀ d ∈ escapeChar c, isPrintable d = true := by
  have hpair : ∀ e, isPrintable e = true → ∀ d ∈ ['\\', e], isPrintable d = true := by
    intro e he d hd
    simp only [List.mem_cons, List.not_mem_nil, or_false] at hd
    rcases hd with rfl | rfl
    · decide
    · exact he
  unfold escapeChar
  split_ifs with h₁ h₂ h₃ h₄ h₅ h₆ h₇ hprint hplane
  · exact hpair _ (by decide)
  · exact hpair _ (by decide)
  · exact hpair _ (by decide)
  · exact hpair _ (by decide)
  · exact hpair _ (by decide)
  · exact hpair _ (by decide)
  · exact hpair _ (by decide)
  · -- an unescaped character is printable by the test that let it through
    simpa using hprint
  · exact escapeUnit_printable _
  · intro d hd
    rcases List.mem_append.mp hd with h | h
    · exact escapeUnit_printable _ d h
    · exact escapeUnit_printable _ d h

theorem quote_printable (t : Text) : ∀ c ∈ quote t, isPrintable c = true := by
  intro c hc
  simp only [quote, List.mem_cons, List.mem_append, List.mem_flatMap, List.not_mem_nil,
    or_false] at hc
  rcases hc with rfl | ⟨d, -, hd⟩ | rfl
  · decide
  · exact escapeChar_printable d c hd
  · decide

mutual

/-- `dumps` emits printable ASCII only. -/
theorem dumps_printable : ∀ v : Json, ∀ c ∈ dumps v, isPrintable c = true
  | .str t, c, hc => by
    rw [dumps] at hc
    exact quote_printable t c hc
  | .num n, c, hc => by
    rw [dumps] at hc
    exact decimal_printable n c hc
  | .arr items, c, hc => by
    simp only [dumps, List.mem_cons, List.mem_append, List.not_mem_nil, or_false] at hc
    rcases hc with rfl | h | rfl
    · decide
    · exact dumpsItems_printable items c h
    · decide
  | .obj fields, c, hc => by
    simp only [dumps, List.mem_cons, List.mem_append, List.not_mem_nil, or_false] at hc
    rcases hc with rfl | h | rfl
    · decide
    · exact dumpsFields_printable fields c h
    · decide

theorem dumpsItems_printable : ∀ vs : List Json, ∀ c ∈ dumpsItems vs, isPrintable c = true
  | [], c, hc => by simp [dumpsItems] at hc
  | [v], c, hc => by
    rw [dumpsItems] at hc
    exact dumps_printable v c hc
  | v :: v' :: vs, c, hc => by
    simp only [dumpsItems, List.mem_append, List.mem_cons] at hc
    rcases hc with h | rfl | h
    · exact dumps_printable v c h
    · decide
    · exact dumpsItems_printable (v' :: vs) c h

theorem dumpsFields_printable :
    ∀ kvs : List (Text × Json), ∀ c ∈ dumpsFields kvs, isPrintable c = true
  | [], c, hc => by simp [dumpsFields] at hc
  | [(k, v)], c, hc => by
    simp only [dumpsFields, List.mem_append, List.mem_cons] at hc
    rcases hc with h | rfl | h
    · exact quote_printable k c h
    · decide
    · exact dumps_printable v c h
  | (k, v) :: kv' :: kvs, c, hc => by
    simp only [dumpsFields, List.mem_append, List.mem_cons] at hc
    rcases hc with h | rfl | h | rfl | h
    · exact quote_printable k c h
    · decide
    · exact dumps_printable v c h
    · decide
    · exact dumpsFields_printable (kv' :: kvs) c h

end

theorem dumps_obj_ne_nil (kvs : List (Text × Json)) : dumps (.obj kvs) ≠ [] := by
  simp [dumps]

end OsMoap.Pack
