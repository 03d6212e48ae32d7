import ProjectIndex.Text.Utf8
import Mathlib.Data.List.Basic

/-!
# Bytes and texts are two views of one thing

Reading loses nothing: the pieces of a byte sequence stand for its bytes, in order
(`flatMap_bytes_decode`).  Reading the bytes of a text gives back its characters, each as a piece of
its own (`decode_encode`).  So a byte sequence has a text exactly if it is the encoding of that text:
`text?_eq_some_iff`.

What carries the first statement is `State.Begun`: inside a character, the value spelled so far and the
bounds of the next byte are those of the bytes seen, so the character that the last byte completes is
encoded by just these bytes.

No bounds let a byte below `0x80` continue a character.  So reading starts afresh behind such a byte,
whatever comes before it, and bytes can be cut there and read piece by piece (`lossy_append_of_ascii`).
For the same reason the byte of a slash or of a period stands in the bytes of a text just where the character
stands in the text (`mem_encode_iff`).
-/

namespace ProjectIndex.Utf8

/-- A text is encoded one character after another. -/
theorem encode_ofList (cs : List Char) :
    encode (String.ofList cs) = cs.flatMap String.utf8EncodeChar := by
  rw [encode, String.toByteArray_ofList]
  simp [List.utf8Encode]

/-! ### The bytes of one character -/

section Bytes

variable {a b c e : UInt8} {v : Nat}

theorem val_ofNat (valid : v.isValidChar) : (Char.ofNat v).val.toNat = v := by
  rw [Char.ofNat, dif_pos valid]
  rfl

theorem utf8EncodeChar_one (ha : a.toNat = v) (high : v < 0x80) :
    String.utf8EncodeChar (Char.ofNat v) = [a] := by
  rw [String.utf8EncodeChar, val_ofNat (.inl (by omega))]
  simp only [show v ≤ 127 by omega, if_true]
  rw [← ha, UInt8.ofNat_toNat]

theorem utf8EncodeChar_two (ha : a.toNat = v / 64 + 0xC0) (hb : b.toNat = v % 64 + 0x80)
    (low : 0x80 ≤ v) (high : v < 0x800) : String.utf8EncodeChar (Char.ofNat v) = [a, b] := by
  have first : v / 64 % 32 = v / 64 := by omega
  rw [String.utf8EncodeChar, val_ofNat (.inl (by omega))]
  simp only [show ¬ v ≤ 127 by omega, show v ≤ 2047 by omega, if_true, if_false, first, ← ha, ← hb,
    UInt8.ofNat_toNat]

theorem utf8EncodeChar_three (ha : a.toNat = v / 4096 + 0xE0) (hb : b.toNat = v / 64 % 64 + 0x80)
    (hc : c.toNat = v % 64 + 0x80) (low : 0x800 ≤ v) (high : v < 0x10000) (valid : v.isValidChar) :
    String.utf8EncodeChar (Char.ofNat v) = [a, b, c] := by
  have first : v / 4096 % 16 = v / 4096 := by omega
  rw [String.utf8EncodeChar, val_ofNat valid]
  simp only [show ¬ v ≤ 127 by omega, show ¬ v ≤ 2047 by omega, show v ≤ 65535 by omega, if_true,
    if_false, first, ← ha, ← hb, ← hc, UInt8.ofNat_toNat]

theorem utf8EncodeChar_four (ha : a.toNat = v / 262144 + 0xF0) (hb : b.toNat = v / 4096 % 64 + 0x80)
    (hc : c.toNat = v / 64 % 64 + 0x80) (he : e.toNat = v % 64 + 0x80) (low : 0x10000 ≤ v)
    (high : v < 0x110000) : String.utf8EncodeChar (Char.ofNat v) = [a, b, c, e] := by
  have first : v / 262144 % 8 = v / 262144 := by omega
  rw [String.utf8EncodeChar, val_ofNat (.inr (by omega))]
  simp only [show ¬ v ≤ 127 by omega, show ¬ v ≤ 2047 by omega, show ¬ v ≤ 65535 by omega, if_false,
    first, ← ha, ← hb, ← hc, ← he, UInt8.ofNat_toNat]

end Bytes

/-! ### Nothing is lost -/

/-- The bytes that a piece stands for. -/
def Piece.bytes : Piece → Bytes
  | .char c => String.utf8EncodeChar c
  | .broken bs => bs

/-- The bytes seen of a character that is not completed. -/
def State.seen : State → Bytes
  | .between => []
  | .inside seen .. => seen

/-- The states that reading comes to, by the length of the character and the bytes seen of it. -/
inductive State.Begun : State → Prop
  | between : Begun .between
  | oneOfTwo {a : UInt8} (low : 0xC2 ≤ a.toNat) (high : a.toNat < 0xE0) :
    Begun (.inside [a] (a.toNat % 32) 0x80 0xBF 0)
  | oneOfThree {a : UInt8} (low : 0xE0 ≤ a.toNat) (high : a.toNat < 0xF0) :
    Begun (.inside [a] (a.toNat % 16) (if a = 0xE0 then 0xA0 else 0x80)
      (if a = 0xED then 0x9F else 0xBF) 1)
  | twoOfThree {a b : UInt8} (low : 0xE0 ≤ a.toNat) (high : a.toNat < 0xF0)
    (second : 0x80 ≤ b.toNat ∧ b.toNat ≤ 0xBF) (least : a.toNat = 0xE0 → 0xA0 ≤ b.toNat)
    (greatest : a.toNat = 0xED → b.toNat ≤ 0x9F) :
    Begun (.inside [a, b] (a.toNat % 16 * 64 + b.toNat % 64) 0x80 0xBF 0)
  | oneOfFour {a : UInt8} (low : 0xF0 ≤ a.toNat) (high : a.toNat < 0xF5) :
    Begun (.inside [a] (a.toNat % 8) (if a = 0xF0 then 0x90 else 0x80)
      (if a = 0xF4 then 0x8F else 0xBF) 2)
  | twoOfFour {a b : UInt8} (low : 0xF0 ≤ a.toNat) (high : a.toNat < 0xF5)
    (second : 0x80 ≤ b.toNat ∧ b.toNat ≤ 0xBF) (least : a.toNat = 0xF0 → 0x90 ≤ b.toNat)
    (greatest : a.toNat = 0xF4 → b.toNat ≤ 0x8F) :
    Begun (.inside [a, b] (a.toNat % 8 * 64 + b.toNat % 64) 0x80 0xBF 1)
  | threeOfFour {a b c : UInt8} (low : 0xF0 ≤ a.toNat) (high : a.toNat < 0xF5)
    (second : 0x80 ≤ b.toNat ∧ b.toNat ≤ 0xBF) (least : a.toNat = 0xF0 → 0x90 ≤ b.toNat)
    (greatest : a.toNat = 0xF4 → b.toNat ≤ 0x8F) (third : 0x80 ≤ c.toNat ∧ c.toNat ≤ 0xBF) :
    Begun (.inside [a, b, c] ((a.toNat % 8 * 64 + b.toNat % 64) * 64 + c.toNat % 64) 0x80 0xBF 0)

/-- The pieces read stand for the given bytes, up to those seen of a character that is not
completed. -/
def Keeps (r : List Piece × State) (bytes : Bytes) : Prop :=
  r.2.Begun ∧ r.1.flatMap Piece.bytes ++ r.2.seen = bytes

section Start

variable {a : UInt8}

theorem start_one (high : a.toNat < 0x80) : start a = ([.char (Char.ofNat a.toNat)], .between) := by
  simp only [start, UInt8.lt_iff_toNat_lt, UInt8.reduceToNat, high, if_true]

theorem start_two (low : 0xC2 ≤ a.toNat) (high : a.toNat < 0xE0) :
    start a = ([], .inside [a] (a.toNat % 32) 0x80 0xBF 0) := by
  simp only [start, UInt8.lt_iff_toNat_lt, UInt8.reduceToNat, show ¬ a.toNat < 128 by omega,
    Nat.not_lt.mpr low, high, if_true, if_false]

theorem start_three (low : 0xE0 ≤ a.toNat) (high : a.toNat < 0xF0) :
    start a = ([], .inside [a] (a.toNat % 16) (if a = 0xE0 then 0xA0 else 0x80)
      (if a = 0xED then 0x9F else 0xBF) 1) := by
  simp only [start, UInt8.lt_iff_toNat_lt, UInt8.reduceToNat, show ¬ a.toNat < 128 by omega,
    show ¬ a.toNat < 194 by omega, Nat.not_lt.mpr low, high, if_true, if_false]

theorem start_four (low : 0xF0 ≤ a.toNat) (high : a.toNat < 0xF5) :
    start a = ([], .inside [a] (a.toNat % 8) (if a = 0xF0 then 0x90 else 0x80)
      (if a = 0xF4 then 0x8F else 0xBF) 2) := by
  simp only [start, UInt8.lt_iff_toNat_lt, UInt8.reduceToNat, show ¬ a.toNat < 128 by omega,
    show ¬ a.toNat < 194 by omega, show ¬ a.toNat < 224 by omega, Nat.not_lt.mpr low, high, if_true,
    if_false]

theorem start_broken (stray : 0x80 ≤ a.toNat ∧ a.toNat < 0xC2 ∨ 0xF5 ≤ a.toNat) :
    start a = ([.broken [a]], .between) := by
  simp only [start, UInt8.lt_iff_toNat_lt, UInt8.reduceToNat, show ¬ a.toNat < 128 by omega, if_false]
  obtain ⟨-, high⟩ | low := stray
  · rw [if_pos high]
  · rw [if_neg (by omega), if_neg (by omega), if_neg (by omega), if_neg (by omega)]

theorem start_keeps (b : UInt8) : Keeps (start b) [b] := by
  by_cases one : b.toNat < 0x80
  · rw [start_one one]
    exact ⟨.between, by simp [Piece.bytes, State.seen, utf8EncodeChar_one rfl one]⟩
  by_cases stray : b.toNat < 0xC2 ∨ 0xF5 ≤ b.toNat
  · rw [start_broken (by omega)]
    exact ⟨.between, rfl⟩
  by_cases two : b.toNat < 0xE0
  · rw [start_two (by omega) two]
    exact ⟨.oneOfTwo (by omega) two, rfl⟩
  by_cases three : b.toNat < 0xF0
  · rw [start_three (by omega) three]
    exact ⟨.oneOfThree (by omega) three, rfl⟩
  · rw [start_four (by omega) (by omega)]
    exact ⟨.oneOfFour (by omega) (by omega), rfl⟩

end Start

section Step

variable {seen : Bytes} {value : Nat} {low high b : UInt8} {left more : Nat}

theorem step_inside_last (inside : low ≤ b ∧ b ≤ high) :
    step (.inside seen value low high 0) b =
      ([.char (Char.ofNat (value * 64 + b.toNat % 64))], .between) := by
  rw [step, if_pos inside]

theorem step_inside_more (inside : low ≤ b ∧ b ≤ high) :
    step (.inside seen value low high (more + 1)) b =
      ([], .inside (seen ++ [b]) (value * 64 + b.toNat % 64) 0x80 0xBF more) := by
  rw [step, if_pos inside]

/-- A byte out of bounds leaves the bytes seen to a broken piece. -/
theorem step_inside_broken (outside : ¬ (low ≤ b ∧ b ≤ high)) :
    Keeps (step (.inside seen value low high left) b) (seen ++ [b]) := by
  obtain ⟨begun, kept⟩ := start_keeps b
  simp only [step, outside, if_false]
  refine ⟨begun, ?_⟩
  rw [List.flatMap_cons, List.append_assoc, kept]
  rfl

theorem keeps_completed
    (h : String.utf8EncodeChar (Char.ofNat (value * 64 + b.toNat % 64)) = seen ++ [b])
    (inside : low ≤ b ∧ b ≤ high) :
    Keeps (step (.inside seen value low high 0) b) (seen ++ [b]) := by
  rw [step_inside_last inside]
  exact ⟨.between, by simpa [Piece.bytes, State.seen] using h⟩

end Step

/-- A byte that is read is kept, in a piece or in the state. -/
theorem step_keeps {s : State} (h : s.Begun) (b : UInt8) : Keeps (step s b) (s.seen ++ [b]) := by
  cases h with
  | between => exact start_keeps b
  | @oneOfTwo a low high =>
      by_cases inside : (0x80 : UInt8) ≤ b ∧ b ≤ 0xBF
      · refine keeps_completed ?_ inside
        simp only [UInt8.le_iff_toNat_le, UInt8.reduceToNat] at inside
        exact utf8EncodeChar_two (by omega) (by omega) (by omega) (by omega)
      · exact step_inside_broken inside
  | @oneOfThree a low high =>
      by_cases inside : (if a = 0xE0 then 0xA0 else 0x80 : UInt8) ≤ b ∧
          b ≤ if a = 0xED then 0x9F else 0xBF
      · rw [step_inside_more inside]
        simp only [UInt8.le_iff_toNat_le, ← UInt8.toNat_inj, apply_ite UInt8.toNat,
          UInt8.reduceToNat] at inside
        obtain ⟨lower, upper⟩ := inside
        refine ⟨.twoOfThree low high ⟨?_, ?_⟩ (fun same => ?_) (fun same => ?_), rfl⟩
        · split at lower <;> omega
        · split at upper <;> omega
        · rwa [if_pos same] at lower
        · rwa [if_pos same] at upper
      · exact step_inside_broken inside
  | @twoOfThree a b' low high second least greatest =>
      by_cases inside : (0x80 : UInt8) ≤ b ∧ b ≤ 0xBF
      · refine keeps_completed ?_ inside
        simp only [UInt8.le_iff_toNat_le, UInt8.reduceToNat] at inside
        refine utf8EncodeChar_three (by omega) (by omega) (by omega) (by omega) (by omega) ?_
        rw [Nat.isValidChar]
        omega
      · exact step_inside_broken inside
  | @oneOfFour a low high =>
      by_cases inside : (if a = 0xF0 then 0x90 else 0x80 : UInt8) ≤ b ∧
          b ≤ if a = 0xF4 then 0x8F else 0xBF
      · rw [step_inside_more inside]
        simp only [UInt8.le_iff_toNat_le, ← UInt8.toNat_inj, apply_ite UInt8.toNat,
          UInt8.reduceToNat] at inside
        obtain ⟨lower, upper⟩ := inside
        refine ⟨.twoOfFour low high ⟨?_, ?_⟩ (fun same => ?_) (fun same => ?_), rfl⟩
        · split at lower <;> omega
        · split at upper <;> omega
        · rwa [if_pos same] at lower
        · rwa [if_pos same] at upper
      · exact step_inside_broken inside
  | @twoOfFour a b' low high second least greatest =>
      by_cases inside : (0x80 : UInt8) ≤ b ∧ b ≤ 0xBF
      · rw [step_inside_more inside]
        simp only [UInt8.le_iff_toNat_le, UInt8.reduceToNat] at inside
        exact ⟨.threeOfFour low high second least greatest inside, rfl⟩
      · exact step_inside_broken inside
  | @threeOfFour a b' c low high second least greatest third =>
      by_cases inside : (0x80 : UInt8) ≤ b ∧ b ≤ 0xBF
      · refine keeps_completed ?_ inside
        simp only [UInt8.le_iff_toNat_le, UInt8.reduceToNat] at inside
        exact utf8EncodeChar_four (by omega) (by omega) (by omega) (by omega) (by omega) (by omega)
      · exact step_inside_broken inside

theorem flatMap_bytes_finish (s : State) : (finish s).flatMap Piece.bytes = s.seen := by
  cases s with
  | between => rfl
  | inside seen => simp [finish, Piece.bytes, State.seen]

theorem flatMap_bytes_run (bytes : Bytes) : ∀ {s : State}, s.Begun →
    (run s bytes).flatMap Piece.bytes = s.seen ++ bytes := by
  induction bytes with
  | nil =>
      intro s _
      rw [run_nil, flatMap_bytes_finish, List.append_nil]
  | cons b bytes ih =>
      intro s begun
      obtain ⟨begun', kept⟩ := step_keeps begun b
      rw [run_cons, List.flatMap_append, ih begun', ← List.append_assoc, kept, List.append_assoc,
        List.singleton_append]

/-- **The pieces of a byte sequence stand for its bytes.** -/
theorem flatMap_bytes_decode (bytes : Bytes) : (decode bytes).flatMap Piece.bytes = bytes :=
  flatMap_bytes_run bytes .between

/-! ### Cuts behind a byte below `0x80` -/

section Ascii

variable {b : UInt8}

theorem step_inside_ascii {seen : Bytes} {value left : Nat} {low high : UInt8}
    (begun : 0x80 ≤ low.toNat) (ascii : b.toNat < 0x80) :
    (step (.inside seen value low high left) b).2 = .between := by
  have outside : ¬ (low ≤ b ∧ b ≤ high) := by
    rintro ⟨lower, -⟩
    rw [UInt8.le_iff_toNat_le] at lower
    omega
  simp only [step, outside, if_false, start_one ascii]

/-- A byte below `0x80` leaves the reading between two characters. -/
theorem step_ascii {s : State} (h : s.Begun) (ascii : b.toNat < 0x80) : (step s b).2 = .between := by
  cases h with
  | between =>
      show (start b).2 = .between
      rw [start_one ascii]
  | oneOfTwo => exact step_inside_ascii (by decide) ascii
  | oneOfThree => exact step_inside_ascii (by split <;> decide) ascii
  | twoOfThree => exact step_inside_ascii (by decide) ascii
  | oneOfFour => exact step_inside_ascii (by split <;> decide) ascii
  | twoOfFour => exact step_inside_ascii (by decide) ascii
  | threeOfFour => exact step_inside_ascii (by decide) ascii

theorem run_append_of_ascii (ascii : b.toNat < 0x80) (bytes rest : Bytes) : ∀ {s : State}, s.Begun →
    run s (bytes ++ b :: rest) = run s (bytes ++ [b]) ++ run .between rest := by
  induction bytes with
  | nil =>
      intro s begun
      show (step s b).1 ++ run (step s b).2 rest = (step s b).1 ++ finish (step s b).2 ++ _
      rw [step_ascii begun ascii, finish, List.append_nil]
  | cons a bytes ih =>
      intro s begun
      have begun' := (step_keeps begun a).1
      rw [List.cons_append, List.cons_append, run_cons, run_cons, ih begun', List.append_assoc]

/-- **What is shown of bytes is shown piece by piece, if they are cut behind a byte below `0x80`.** -/
theorem lossy_append_of_ascii {front : Bytes} (last : front.getLast? = some b)
    (ascii : b.toNat < 0x80) (rest : Bytes) : lossy (front ++ rest) = lossy front ++ lossy rest := by
  obtain ⟨bytes, rfl⟩ := List.getLast?_eq_some_iff.mp last
  have pieces : decode (bytes ++ b :: rest) = decode (bytes ++ [b]) ++ decode rest :=
    run_append_of_ascii ascii bytes rest .between
  rw [List.append_assoc, List.singleton_append, lossy, pieces, List.map_append, String.ofList_append]
  rfl

end Ascii

/-! ### Reading what was written -/

section Step

variable {seen : Bytes} {value : Nat} {low high b : UInt8} {more : Nat}

/-- A byte that continues a character and does not complete it. -/
theorem run_inside_more (bytes : Bytes) (inside : low ≤ b ∧ b ≤ high) :
    run (.inside seen value low high (more + 1)) (b :: bytes) =
      run (.inside (seen ++ [b]) (value * 64 + b.toNat % 64) 0x80 0xBF more) bytes := by
  rw [run_cons, step_inside_more inside]
  rfl

/-- A byte that completes the character of a number. -/
theorem run_inside_last {v : Nat} (bytes : Bytes) (number : value * 64 + b.toNat % 64 = v)
    (inside : low ≤ b ∧ b ≤ high) :
    run (.inside seen value low high 0) (b :: bytes) = .char (Char.ofNat v) :: run .between bytes := by
  rw [run_cons, step_inside_last inside, number]
  rfl

end Step

/-- The bytes of a character are read as that character. -/
theorem run_utf8EncodeChar (c : Char) (rest : Bytes) :
    run .between (String.utf8EncodeChar c ++ rest) = .char c :: run .between rest := by
  have number : Char.ofNat c.val.toNat = c := Char.ofNat_toNat c
  have valid : c.val.toNat.isValidChar := c.valid
  rw [Nat.isValidChar] at valid
  rw [String.utf8EncodeChar]
  generalize c.val.toNat = v at number valid
  subst number
  have byte : ∀ n, n < 256 → (UInt8.ofNat n).toNat = n := fun n => UInt8.toNat_ofNat_of_lt'
  have tail : ∀ n, (0x80 : UInt8) ≤ UInt8.ofNat (n % 64 + 128) ∧ UInt8.ofNat (n % 64 + 128) ≤ 0xBF := by
    intro n
    simp only [UInt8.le_iff_toNat_le, byte (n % 64 + 128) (by omega), UInt8.reduceToNat]
    omega
  have last := byte (v % 64 + 128) (by omega)
  by_cases one : v ≤ 127
  · rw [if_pos one, List.singleton_append, run_cons, step, start_one (by rw [byte] <;> omega),
      byte _ (by omega)]
    rfl
  rw [if_neg one]
  by_cases two : v ≤ 2047
  · have first := byte (v / 64 % 32 + 192) (by omega)
    rw [if_pos two, List.cons_append, List.singleton_append, run_cons, step,
      start_two (by omega) (by omega)]
    exact run_inside_last rest (by omega) (tail v)
  rw [if_neg two]
  have middle := byte (v / 64 % 64 + 128) (by omega)
  by_cases three : v ≤ 65535
  · have first := byte (v / 4096 % 16 + 224) (by omega)
    rw [if_pos three, List.cons_append, List.cons_append, List.singleton_append, run_cons, step,
      start_three (by omega) (by omega), List.nil_append, run_inside_more]
    · exact run_inside_last rest (by omega) (tail v)
    · simp only [UInt8.le_iff_toNat_le, ← UInt8.toNat_inj, apply_ite UInt8.toNat, first, middle,
        UInt8.reduceToNat]
      constructor <;> split <;> omega
  · have first := byte (v / 262144 % 8 + 240) (by omega)
    have second := byte (v / 4096 % 64 + 128) (by omega)
    rw [if_neg three, List.cons_append, List.cons_append, List.cons_append, List.singleton_append,
      run_cons, step, start_four (by omega) (by omega), List.nil_append, run_inside_more]
    · rw [run_inside_more _ (tail (v / 64))]
      exact run_inside_last rest (by omega) (tail v)
    · simp only [UInt8.le_iff_toNat_le, ← UInt8.toNat_inj, apply_ite UInt8.toNat, first, second,
        UInt8.reduceToNat]
      constructor <;> split <;> omega

theorem decode_flatMap (cs : List Char) :
    decode (cs.flatMap String.utf8EncodeChar) = cs.map .char := by
  induction cs with
  | nil => rfl
  | cons c cs ih =>
      rw [List.flatMap_cons, decode, run_utf8EncodeChar, List.map_cons, ← ih]
      rfl

/-- **The bytes of a text are read as its characters.** -/
theorem decode_encode (s : String) : decode (encode s) = s.toList.map .char := by
  have spelled := encode_ofList s.toList
  rw [String.ofList_toList] at spelled
  rw [spelled, decode_flatMap]

/-! ### Texts -/

theorem mapM_char? (cs : List Char) : (cs.map Piece.char).mapM Piece.char? = some cs := by
  induction cs with
  | nil => rfl
  | cons c cs ih => simp [Piece.char?, ih]

/-- Pieces that are all characters are the pieces of these characters. -/
theorem eq_map_of_mapM {pieces : List Piece} {cs : List Char}
    (h : pieces.mapM Piece.char? = some cs) : pieces = cs.map .char := by
  induction pieces generalizing cs with
  | nil => simpa using h.symm
  | cons p pieces ih =>
      simp only [List.mapM_cons, Option.bind_eq_bind, Option.bind_eq_some_iff, Option.pure_def] at h
      obtain ⟨c, hc, rest, hrest, same⟩ := h
      obtain rfl := Option.some.inj same
      cases p with
      | char c' =>
          obtain rfl := Option.some.inj hc
          rw [List.map_cons, ih hrest]
      | broken bs => exact nomatch hc

/-- **A byte sequence has the text that it is the encoding of, and no other.** -/
theorem text?_eq_some_iff {bytes : Bytes} {s : String} : text? bytes = some s ↔ bytes = encode s := by
  constructor
  · intro h
    obtain ⟨cs, hcs, rfl⟩ := Option.map_eq_some_iff.mp h
    have pieces := eq_map_of_mapM hcs
    rw [encode_ofList, ← flatMap_bytes_decode bytes, pieces, List.flatMap_map]
    rfl
  · rintro rfl
    rw [text?, chars?, decode_encode, mapM_char?, Option.map_some, String.ofList_toList]

theorem encode_injective {s t : String} (h : encode s = encode t) : s = t :=
  Option.some.inj ((text?_eq_some_iff.mpr rfl).symm.trans (text?_eq_some_iff.mpr h))

/-- What is shown of the bytes of a text is that text. -/
theorem lossy_encode (s : String) : lossy (encode s) = s := by
  have shown : Piece.shown ∘ Piece.char = id := rfl
  rw [lossy, decode_encode, List.map_map, shown, List.map_id, String.ofList_toList]

/-! ### The places of a byte below `0x80` -/

/-- Where a character takes several bytes, all of them have the highest bit set. -/
theorem utf8EncodeChar_high {c : Char} (long : 127 < c.val.toNat) :
    ∀ b ∈ String.utf8EncodeChar c, 0x80 ≤ b.toNat := by
  have valid : c.val.toNat.isValidChar := c.valid
  rw [Nat.isValidChar] at valid
  have high : ∀ n, 0x80 ≤ n → n < 256 → 0x80 ≤ (UInt8.ofNat n).toNat := by
    intro n low top
    rwa [UInt8.toNat_ofNat_of_lt' top]
  unfold String.utf8EncodeChar
  generalize c.val.toNat = v at valid long
  simp only [if_neg (Nat.not_le.mpr long)]
  have last := high (v % 64 + 128) (by omega) (by omega)
  have third := high (v / 64 % 64 + 128) (by omega) (by omega)
  split_ifs
  · rw [List.forall_mem_cons, List.forall_mem_singleton]
    exact ⟨high _ (by omega) (by omega), last⟩
  · rw [List.forall_mem_cons, List.forall_mem_cons, List.forall_mem_singleton]
    exact ⟨high _ (by omega) (by omega), third, last⟩
  · rw [List.forall_mem_cons, List.forall_mem_cons, List.forall_mem_cons, List.forall_mem_singleton]
    exact ⟨high _ (by omega) (by omega), high _ (by omega) (by omega), third, last⟩

/-- A byte below `0x80` is among the bytes of one character only, which is encoded by it alone. -/
theorem mem_utf8EncodeChar_iff {b : UInt8} {c : Char} (ascii : b.toNat < 0x80) :
    b ∈ String.utf8EncodeChar c ↔ c = Char.ofNat b.toNat := by
  have number : Char.ofNat c.val.toNat = c := Char.ofNat_toNat c
  constructor
  · intro member
    have short : c.val.toNat ≤ 127 := by
      apply Nat.not_lt.mp
      intro long
      have := utf8EncodeChar_high long b member
      omega
    have alone := utf8EncodeChar_one (a := UInt8.ofNat c.val.toNat) (v := c.val.toNat)
      (UInt8.toNat_ofNat_of_lt' (Nat.lt_of_le_of_lt short (by decide))) (by omega)
    rw [number] at alone
    rw [alone, List.mem_singleton] at member
    rw [member, UInt8.toNat_ofNat_of_lt' (Nat.lt_of_le_of_lt short (by decide)), number]
  · rintro rfl
    rw [utf8EncodeChar_one rfl ascii]
    exact List.mem_singleton_self b

/-- A byte below `0x80` is among the bytes of a text exactly if its character is in the text. -/
theorem mem_encode_iff {b : UInt8} {s : String} (ascii : b.toNat < 0x80) :
    b ∈ encode s ↔ Char.ofNat b.toNat ∈ s.toList := by
  have spelled := encode_ofList s.toList
  rw [String.ofList_toList] at spelled
  rw [spelled, List.mem_flatMap]
  constructor
  · rintro ⟨c, inside, member⟩
    rw [mem_utf8EncodeChar_iff ascii] at member
    exact member ▸ inside
  · exact fun inside => ⟨_, inside, (mem_utf8EncodeChar_iff ascii).mpr rfl⟩

/-- What is shown of bytes is empty only where there are none. -/
theorem lossy_eq_empty_iff {bytes : Bytes} : lossy bytes = "" ↔ bytes = [] := by
  constructor
  · intro h
    have none : decode bytes = [] := by simpa [lossy] using h
    rw [← flatMap_bytes_decode bytes, none]
    rfl
  · rintro rfl
    rfl

theorem encode_eq_nil_iff {s : String} : encode s = [] ↔ s = "" := by
  rw [← lossy_eq_empty_iff, lossy_encode]

end ProjectIndex.Utf8
