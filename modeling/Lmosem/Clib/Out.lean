import Lmosem.Clib.Ctype
import Lmosem.Hal.Types
import Lmosem.Lib.Memory
import Mathlib.Data.List.GetD

-- How text gets into a buffer.
namespace Lmosem

open Memory

-- Memory, and the place where the next character goes.
structure Out where
  mem : Mem 32
  str : Adr

-- `if (str <= end) *str = ch; ++str;`
def putChar (endp : Adr) (ch : Byte) (o : Out) : Out :=
  ⟨if o.str ≤ endp then Function.update o.mem o.str ch else o.mem, o.str + 1⟩

def ADDCH (endp : Adr) (ch : Byte) (o : Out) : Out :=
  ⟨if o.str < endp then Function.update o.mem o.str ch else o.mem, o.str + 1⟩

-- One character after the other.
def emits (put : Byte → Out → Out) (text : List Byte) (o : Out) : Out :=
  text.foldl (fun o ch => put ch o) o

theorem emits_append (put : Byte → Out → Out) (xs ys : List Byte) (o : Out) :
    emits put (xs ++ ys) o = emits put ys (emits put xs o) := List.foldl_append

@[simp] theorem emits_nil (put : Byte → Out → Out) (o : Out) : emits put [] o = o := rfl

@[simp] theorem emits_cons (put : Byte → Out → Out) (ch : Byte) (text : List Byte) (o : Out) :
    emits put (ch :: text) o = emits put text (put ch o) := rfl

theorem emits_replicate (put : Byte → Out → Out) (n : ℕ) (ch : Byte) (o : Out) :
    emits put (List.replicate n ch) o = (put ch)^[n] o := by
  induction n generalizing o with
  | zero => rfl
  | succ n ih => rw [List.replicate_succ, emits_cons, ih, Function.iterate_succ_apply]

-- Where `text` has been written to a buffer of `size` bytes in the memory `m`. The last byte
-- is kept for the terminator, so it does not matter what is there for now.
structure TextIn (buf : Adr) (size : ℕ) (m : Mem 32) (text : List Byte) (o : Out) : Prop where
  str : o.str = buf + BitVec.ofNat 32 text.length
  chars : ∀ a, off buf a < text.length → off buf a + 1 < size → o.mem a = text.getD (off buf a) 0
  rest : ∀ a, text.length ≤ off buf a ∨ size ≤ off buf a → o.mem a = m a

section TextIn

variable {buf : Adr} {size : ℕ} {m : Mem 32} {text : List Byte} {o : Out} {ch : Byte}

theorem TextIn.start (buf : Adr) (size : ℕ) (m : Mem 32) : TextIn buf size m [] ⟨m, buf⟩ := by
  refine ⟨by simp, fun a h => absurd h (Nat.not_lt_zero _), fun _ _ => rfl⟩

-- A character is written in front of the last byte, and not behind it.
theorem TextIn.put (h : TextIn buf size m text o) {P : Prop} [Decidable P]
    (hfits : text.length < 2 ^ 32) (hin : text.length + 1 < size → P) (hout : P → text.length < size) :
    TextIn buf size m (text ++ [ch])
      ⟨if P then Function.update o.mem o.str ch else o.mem, o.str + 1⟩ := by
  obtain ⟨hstr, hchars, hrest⟩ := h
  have hoff (a : Adr) : a = o.str ↔ off buf a = text.length := by
    rw [hstr, off_eq_iff hfits]
  have hother (a : Adr) (ha : off buf a ≠ text.length) :
      (if P then Function.update o.mem o.str ch else o.mem) a = o.mem a := by
    split_ifs
    · exact Function.update_of_ne (fun he => ha ((hoff a).mp he)) _ _
    · rfl
  refine ⟨?_, fun a ha hsize => ?_, fun a ha => ?_⟩ <;> dsimp only
  · rw [hstr, List.length_append, List.length_singleton, BitVec.ofNat_add, BitVec.add_assoc]
    rfl
  · rw [List.length_append, List.length_singleton] at ha
    by_cases hlast : off buf a = text.length
    · have hP : P := hin (hlast ▸ hsize)
      rw [if_pos hP, hlast, List.getD_append_right _ _ _ _ (Nat.le_refl _), Nat.sub_self,
        (hoff a).mpr hlast, Function.update_self]
      rfl
    · rw [hother a hlast, hchars a (by omega) hsize, List.getD_append _ _ _ _ (by omega)]
  · rw [List.length_append, List.length_singleton] at ha
    by_cases hlast : off buf a = text.length
    · have hP : ¬P := fun hP => by have := hout hP; omega
      rw [if_neg hP]
      exact hrest a (Or.inl hlast.ge)
    · rw [hother a hlast]
      exact hrest a (by omega)

-- The buffer does not wrap, and its last byte is where `end` points.
structure Buffer (buf : Adr) (size : ℕ) (endp : Adr) : Prop where
  fits : buf.toNat + size ≤ 2 ^ 32
  last : endp.toNat + 1 = buf.toNat + size

theorem TextIn.str_toNat (h : TextIn buf size m text o) (hfits : buf.toNat + text.length < 2 ^ 32) :
    o.str.toNat = buf.toNat + text.length := by
  rw [h.str, add_toNat hfits]

theorem TextIn.putChar {endp : Adr} (h : TextIn buf size m text o) (hb : Buffer buf size endp)
    (hfits : buf.toNat + text.length < 2 ^ 32) :
    TextIn buf size m (text ++ [ch]) (putChar endp ch o) := by
  have hstr := h.str_toNat hfits
  have hlast := hb.last
  refine h.put (by omega) (fun hin => ?_) fun hout => ?_
  · rw [BitVec.le_def]
    omega
  · rw [BitVec.le_def] at hout
    omega

theorem TextIn.ADDCH {endp : Adr} (h : TextIn buf size m text o) (hb : Buffer buf size endp)
    (hfits : buf.toNat + text.length < 2 ^ 32) :
    TextIn buf size m (text ++ [ch]) (ADDCH endp ch o) := by
  have hstr := h.str_toNat hfits
  have hlast := hb.last
  refine h.put (by omega) (fun hin => ?_) fun hout => ?_
  · rw [BitVec.lt_def]
    omega
  · rw [BitVec.lt_def] at hout
    omega

-- Both ways of writing a character.
structure Writes (put : Adr → Byte → Out → Out) : Prop where
  char : ∀ {buf : Adr} {size : ℕ} {m : Mem 32} {text : List Byte} {o : Out} {ch : Byte} {endp : Adr},
    TextIn buf size m text o → Buffer buf size endp → buf.toNat + text.length < 2 ^ 32 →
      TextIn buf size m (text ++ [ch]) (put endp ch o)

theorem putChar_writes : Writes putChar := ⟨fun h hb hfits => h.putChar hb hfits⟩

theorem ADDCH_writes : Writes ADDCH := ⟨fun h hb hfits => h.ADDCH hb hfits⟩

theorem TextIn.emits {put : Adr → Byte → Out → Out} (hput : Writes put) {endp : Adr}
    (h : TextIn buf size m text o) (hb : Buffer buf size endp) (more : List Byte)
    (hfits : buf.toNat + (text ++ more).length ≤ 2 ^ 32) :
    TextIn buf size m (text ++ more) (emits (put endp) more o) := by
  induction more generalizing text o with
  | nil => rwa [List.append_nil]
  | cons ch more ih =>
      have hcons : text ++ ch :: more = (text ++ [ch]) ++ more := by simp
      rw [hcons] at hfits ⊢
      have hlen : (text ++ [ch]).length = text.length + 1 := by simp
      have hroom := hfits
      rw [List.length_append, hlen] at hroom
      exact ih (hput.char h hb (by omega)) hfits

end TextIn

end Lmosem
