import TinLang.Text.Glyph

/-!
# Glyphs of texts

A text is read glyph by glyph from the front, so the glyphs of a UTF-8 text with something after it
are the glyphs of both. A glyph that is not stray is written in the bytes of its code point.
-/
namespace TinLang

variable {lead : UInt8} {rest left : Text} {glyph : Glyph} {low high : Nat}

namespace Glyph

/-- A glyph of two bytes does not depend on what follows. -/
theorem pair_append
    (found : pair lead rest = some glyph) (more : Text) :
    pair lead (rest ++ more) = some glyph := by
  cases rest with
  | nil => simp [pair] at found
  | cons second rest => exact found

/-- A glyph of three bytes does not depend on what follows. -/
theorem triple_append
    (found : triple low high lead rest = some glyph) (more : Text) :
    triple low high lead (rest ++ more) = some glyph := by
  cases rest with
  | nil => simp [triple] at found
  | cons second rest =>
    cases rest with
    | nil => simp [triple] at found
    | cons third rest => exact found

/-- A glyph of four bytes does not depend on what follows. -/
theorem quadruple_append
    (found : quadruple low high lead rest = some glyph) (more : Text) :
    quadruple low high lead (rest ++ more) = some glyph := by
  cases rest with
  | nil => simp [quadruple] at found
  | cons second rest =>
    cases rest with
    | nil => simp [quadruple] at found
    | cons third rest =>
      cases rest with
      | nil => simp [quadruple] at found
      | cons fourth rest => exact found

/-- A well-formed sequence stays one when bytes follow. -/
theorem wellFormed?_append
    (found : wellFormed? lead rest = some glyph) (more : Text) :
    wellFormed? lead (rest ++ more) = some glyph := by
  unfold wellFormed? at found ⊢
  simp only at found ⊢
  split at found <;> rename_i ascii
  · rw [if_pos ascii, found]
  rw [if_neg ascii]
  split at found <;> rename_i low
  · contradiction
  rw [if_neg low]
  split at found <;> rename_i two
  · rw [if_pos two, pair_append found]
  rw [if_neg two]
  split at found <;> rename_i shortest
  · rw [if_pos shortest, triple_append found]
  rw [if_neg shortest]
  split at found <;> rename_i surrogate
  · rw [if_pos surrogate, triple_append found]
  rw [if_neg surrogate]
  split at found <;> rename_i three
  · rw [if_pos three, triple_append found]
  rw [if_neg three]
  split at found <;> rename_i least
  · rw [if_pos least, quadruple_append found]
  rw [if_neg least]
  split at found <;> rename_i four
  · rw [if_pos four, quadruple_append found]
  rw [if_neg four]
  split at found <;> rename_i most
  · rw [if_pos most, quadruple_append found]
  · contradiction

/-- A front glyph that is not stray is a well-formed sequence. -/
theorem wellFormed?_of_not_isStray
    (whole : (first lead rest).isStray = false) :
    wellFormed? lead rest = some (first lead rest) := by
  cases found : wellFormed? lead rest with
  | some glyph => rw [first, found, Option.getD_some]
  | none =>
    rw [first, found, Option.getD_none] at whole
    simp [isStray, stray] at whole

end Glyph

namespace Text

/-- After a text without stray bytes the glyphs are those of what follows. -/
theorem glyphsAfter_append {skipped : Nat} (inside : skipped ≤ left.length)
    (whole : ∀ glyph ∈ glyphsAfter skipped left, glyph.isStray = false) (right : Text) :
    glyphsAfter skipped (left ++ right) = glyphsAfter skipped left ++ right.glyphs := by
  induction left generalizing skipped with
  | nil =>
    obtain rfl : skipped = 0 := Nat.le_zero.mp inside
    rfl
  | cons lead left ih =>
    cases skipped with
    | succ skipped => exact ih (Nat.le_of_succ_le_succ inside) whole
    | zero =>
      have found := Glyph.wellFormed?_of_not_isStray (whole _ List.mem_cons_self)
      have same : Glyph.first lead (left ++ right) = Glyph.first lead left := by
        rw [Glyph.first, Glyph.wellFormed?_append found right, Option.getD_some]
      obtain ⟨tail, bytes, part⟩ := Glyph.startsAt_first lead left
      have short : (Glyph.first lead left).bytes.length - 1 ≤ left.length := by
        rw [bytes, List.length_cons, Nat.add_sub_cancel]
        exact part.length_le
      have later := ih short fun glyph mem => whole glyph (List.mem_cons_of_mem _ mem)
      simp only [List.cons_append, glyphsAfter, same, later]

/-- What follows a UTF-8 text decides whether the whole is UTF-8. -/
theorem isUtf8_append (valid : left.isUtf8) (right : Text) :
    (left ++ right).isUtf8 = right.isUtf8 := by
  have whole : ∀ glyph ∈ left.glyphs, glyph.isStray = false := by
    simpa [isUtf8] using valid
  have glyphs : (left ++ right).glyphs = left.glyphs ++ right.glyphs :=
    glyphsAfter_append (Nat.zero_le _) whole right
  rw [isUtf8, glyphs, List.all_append, ← isUtf8, valid, Bool.true_and, isUtf8]

/-- UTF-8 texts one after another are UTF-8. -/
theorem isUtf8_flatten {parts : List Text} (each : parts.all isUtf8) : isUtf8 parts.flatten := by
  induction parts with
  | nil => rfl
  | cons part parts ih =>
    obtain ⟨first, others⟩ := (Bool.and_eq_true _ _).mp ((List.all_cons ..).symm.trans each)
    rw [List.flatten_cons, isUtf8_append first, ih others]

end Text

namespace Glyph

/-- A number below 256 is the number of its byte, and no other byte has it. -/
private theorem toUInt8_eq {number : Nat} (byte : UInt8) (same : number = byte.toNat) :
    number.toUInt8 = byte := by
  rw [same]
  exact UInt8.ofNat_toNat

private theorem encode_of_pair {lead : UInt8} {rest : Text} {glyph : Glyph}
    (found : pair lead rest = some glyph) (low : 0xC2 ≤ lead.toNat) (high : lead.toNat < 0xE0) :
    encode glyph.code = glyph.bytes := by
  unfold pair at found
  split at found
  · split at found
    next second _ continued =>
      obtain rfl := Option.some.inj found
      simp only [continues, between, Bool.and_eq_true, decide_eq_true_eq] at continued
      have notAscii : ¬ lead.toNat % 32 * 64 + tailBits second < 0x80 := by omega
      have two : lead.toNat % 32 * 64 + tailBits second < 0x800 := by
        unfold tailBits
        omega
      simp only [encode, notAscii, two, ↓reduceIte]
      unfold tailBits
      rw [toUInt8_eq lead (by omega), toUInt8_eq second (by omega)]
    · contradiction
  · contradiction

private theorem encode_of_triple {least most : Nat} {lead : UInt8} {rest : Text} {glyph : Glyph}
    (found : triple least most lead rest = some glyph) (low : 0xE0 ≤ lead.toNat)
    (high : lead.toNat < 0xF0) (bounded : 0x80 ≤ least ∧ most ≤ 0xBF)
    (first : lead.toNat = 0xE0 → 0xA0 ≤ least) (surrogate : lead.toNat = 0xED → most ≤ 0x9F) :
    encode glyph.code = glyph.bytes := by
  unfold triple at found
  split at found
  · split at found
    next second third _ continued =>
      obtain rfl := Option.some.inj found
      simp only [continues, between, Bool.and_eq_true, decide_eq_true_eq] at continued
      simp only [tailBits]
      obtain ⟨code, value⟩ : ∃ code, code =
          (lead.toNat % 16 * 64 + second.toNat % 64) * 64 + third.toNat % 64 := ⟨_, rfl⟩
      rw [← value]
      have notAscii : ¬ code < 0x80 := by omega
      have notTwo : ¬ code < 0x800 := by omega
      have valid : ¬ ((0xD800 ≤ code ∧ code < 0xE000) ∨ 0x110000 ≤ code) := by omega
      have three : code < 0x10000 := by omega
      simp only [encode, notAscii, notTwo, valid, three, ↓reduceIte]
      rw [toUInt8_eq lead (by omega), toUInt8_eq second (by omega),
        toUInt8_eq third (by omega)]
    · contradiction
  · contradiction

private theorem encode_of_quadruple {least most : Nat} {lead : UInt8} {rest : Text} {glyph : Glyph}
    (found : quadruple least most lead rest = some glyph) (low : 0xF0 ≤ lead.toNat)
    (high : lead.toNat ≤ 0xF4) (bounded : 0x80 ≤ least ∧ most ≤ 0xBF)
    (first : lead.toNat = 0xF0 → 0x90 ≤ least) (last : lead.toNat = 0xF4 → most ≤ 0x8F) :
    encode glyph.code = glyph.bytes := by
  unfold quadruple at found
  split at found
  · split at found
    next second third fourth _ continued =>
      obtain rfl := Option.some.inj found
      simp only [continues, between, Bool.and_eq_true, decide_eq_true_eq] at continued
      simp only [tailBits]
      obtain ⟨code, value⟩ : ∃ code, code = ((lead.toNat % 8 * 64 + second.toNat % 64) * 64 +
          third.toNat % 64) * 64 + fourth.toNat % 64 := ⟨_, rfl⟩
      rw [← value]
      have notAscii : ¬ code < 0x80 := by omega
      have notTwo : ¬ code < 0x800 := by omega
      have valid : ¬ ((0xD800 ≤ code ∧ code < 0xE000) ∨ 0x110000 ≤ code) := by omega
      have notThree : ¬ code < 0x10000 := by omega
      simp only [encode, notAscii, notTwo, valid, notThree, ↓reduceIte]
      rw [toUInt8_eq lead (by omega), toUInt8_eq second (by omega),
        toUInt8_eq third (by omega), toUInt8_eq fourth (by omega)]
    · contradiction
  · contradiction

/-- A well-formed sequence is the bytes of its code point. -/
theorem encode_of_wellFormed?
    (found : wellFormed? lead rest = some glyph) : encode glyph.code = glyph.bytes := by
  unfold wellFormed? at found
  simp only at found
  split at found
  next ascii =>
    obtain rfl := Option.some.inj found
    simp only [encode, ascii, ↓reduceIte]
    rw [toUInt8_eq lead rfl]
  · repeat' split at found
    all_goals first
      | contradiction
      | exact encode_of_pair found (by omega) (by omega)
      | exact encode_of_triple found (by omega) (by omega) (by omega) (by omega) (by omega)
      | exact encode_of_quadruple found (by omega) (by omega) (by omega) (by omega) (by omega)

/-- A glyph is found after its lead byte from its other bytes, whatever follows them. -/
def Exact (read : Text → Option Glyph) (lead : UInt8) (glyph : Glyph) : Prop :=
  ∃ tail, glyph.bytes = lead :: tail ∧ ∀ rest, read (tail ++ rest) = some glyph

/-- A glyph of two bytes is found after its lead byte. -/
theorem exact_pair
    (found : pair lead rest = some glyph) : Exact (pair lead) lead glyph := by
  cases rest with
  | nil => simp [pair] at found
  | cons second rest =>
    have bytes : glyph.bytes = [lead, second] := by
      simp only [pair] at found
      split at found
      · rw [← Option.some.inj found]
      · contradiction
    exact ⟨[second], bytes, fun _ => found⟩

/-- A glyph of three bytes is found after its lead byte. -/
theorem exact_triple
    (found : triple low high lead rest = some glyph) : Exact (triple low high lead) lead glyph := by
  match rest with
  | [] => simp [triple] at found
  | [_] => simp [triple] at found
  | second :: third :: rest =>
    have bytes : glyph.bytes = [lead, second, third] := by
      simp only [triple] at found
      split at found
      · rw [← Option.some.inj found]
      · contradiction
    exact ⟨[second, third], bytes, fun _ => found⟩

/-- A glyph of four bytes is found after its lead byte. -/
theorem exact_quadruple
    (found : quadruple low high lead rest = some glyph) :
    Exact (quadruple low high lead) lead glyph := by
  match rest with
  | [] => simp [quadruple] at found
  | [_] => simp [quadruple] at found
  | [_, _] => simp [quadruple] at found
  | second :: third :: fourth :: rest =>
    have bytes : glyph.bytes = [lead, second, third, fourth] := by
      simp only [quadruple] at found
      split at found
      · rw [← Option.some.inj found]
      · contradiction
    exact ⟨[second, third, fourth], bytes, fun _ => found⟩

/-- A well-formed sequence is found from its own bytes. -/
theorem exact_wellFormed?
    (found : wellFormed? lead rest = some glyph) : Exact (wellFormed? lead) lead glyph := by
  unfold wellFormed? at found ⊢
  by_cases ascii : lead.toNat < 0x80
  · simp only [ascii, ↓reduceIte] at found ⊢
    exact ⟨[], by rw [← Option.some.inj found], fun _ => found⟩
  by_cases tail : lead.toNat < 0xC2
  · simp [ascii, tail] at found
  by_cases two : lead.toNat < 0xE0
  · simp only [ascii, tail, two, ↓reduceIte] at found ⊢
    exact exact_pair found
  by_cases shortest : lead.toNat = 0xE0
  · simp only [shortest, Nat.reduceLT, ↓reduceIte] at found ⊢
    exact exact_triple found
  by_cases surrogate : lead.toNat = 0xED
  · simp only [surrogate, Nat.reduceLT, Nat.reduceEqDiff, ↓reduceIte] at found ⊢
    exact exact_triple found
  by_cases three : lead.toNat < 0xF0
  · simp only [ascii, tail, two, shortest, surrogate, three, ↓reduceIte] at found ⊢
    exact exact_triple found
  by_cases least : lead.toNat = 0xF0
  · simp only [least, Nat.reduceLT, Nat.reduceEqDiff, ↓reduceIte] at found ⊢
    exact exact_quadruple found
  by_cases four : lead.toNat < 0xF4
  · simp only [ascii, tail, two, shortest, surrogate, three, least, four, ↓reduceIte] at found ⊢
    exact exact_quadruple found
  by_cases last : lead.toNat = 0xF4
  · simp only [last, Nat.reduceLT, Nat.reduceEqDiff, ↓reduceIte] at found ⊢
    exact exact_quadruple found
  · simp [ascii, tail, two, shortest, surrogate, three, least, four, last] at found

/-- A number below 256 is read back from the bytes of its code point. -/
theorem wellFormed?_encode_byte (value : UInt8) : ∃ lead tail, encode value.toNat = lead :: tail ∧
    ∀ rest, wellFormed? lead (tail ++ rest) = some ⟨value.toNat, lead :: tail⟩ := by
  have bound := value.toNat_lt
  by_cases ascii : value.toNat < 0x80
  · refine ⟨value.toNat.toUInt8, [], by simp [encode, ascii], fun rest => ?_⟩
    rw [toUInt8_eq value rfl]
    simp only [wellFormed?, ascii, ↓reduceIte]
  · have two : value.toNat < 0x800 := by omega
    refine ⟨(0xC0 + value.toNat / 64).toUInt8, [(0x80 + value.toNat % 64).toUInt8],
      by simp only [encode, ascii, two, ↓reduceIte], fun rest => ?_⟩
    have lead : (0xC0 + value.toNat / 64).toUInt8.toNat = 0xC0 + value.toNat / 64 := by
      rw [Nat.toUInt8, UInt8.toNat_ofNat']
      omega
    have second : (0x80 + value.toNat % 64).toUInt8.toNat = 0x80 + value.toNat % 64 := by
      rw [Nat.toUInt8, UInt8.toNat_ofNat']
      omega
    have notAscii : ¬ 0xC0 + value.toNat / 64 < 0x80 := by omega
    have notTail : ¬ 0xC0 + value.toNat / 64 < 0xC2 := by omega
    have short : 0xC0 + value.toNat / 64 < 0xE0 := by omega
    have continued : continues (0x80 + value.toNat % 64).toUInt8 := by
      simp only [continues, between, second, Bool.and_eq_true, decide_eq_true_eq]
      omega
    simp only [wellFormed?, lead, notAscii, notTail, short, ↓reduceIte, pair, List.cons_append,
      List.nil_append, continued, tailBits, second, Option.some.injEq, Glyph.mk.injEq, and_true]
    omega

end Glyph

namespace Text

/-- After a UTF-8 text the glyphs are those of what follows. -/
theorem glyphs_append (valid : left.isUtf8) (right : Text) :
    (left ++ right).glyphs = left.glyphs ++ right.glyphs := by
  have whole : ∀ glyph ∈ left.glyphs, glyph.isStray = false := by simpa [isUtf8] using valid
  exact glyphsAfter_append (Nat.zero_le _) whole right

/-- Every glyph of a UTF-8 text is a well-formed sequence. -/
theorem exact_of_isUtf8 {text : Text} (valid : text.isUtf8) : ∀ glyph ∈ text.glyphs,
    ∃ lead, Glyph.Exact (Glyph.wellFormed? lead) lead glyph := by
  have exact : ∀ skipped, (∀ glyph ∈ glyphsAfter skipped text, glyph.isStray = false) →
      ∀ glyph ∈ glyphsAfter skipped text,
        ∃ lead, Glyph.Exact (Glyph.wellFormed? lead) lead glyph := by
    clear valid
    induction text with
    | nil => simp [glyphsAfter]
    | cons lead text ih =>
      intro skipped valid glyph mem
      cases skipped with
      | succ skipped => exact ih skipped valid glyph mem
      | zero =>
        rcases List.mem_cons.mp mem with rfl | later
        · have found := Glyph.wellFormed?_of_not_isStray (valid _ List.mem_cons_self)
          exact ⟨lead, Glyph.exact_wellFormed? found⟩
        · exact ih _ (fun other inside => valid other (List.mem_cons_of_mem _ inside)) glyph later
  have whole : ∀ glyph ∈ text.glyphs, glyph.isStray = false := by simpa [isUtf8] using valid
  exact exact 0 whole

end Text

end TinLang
