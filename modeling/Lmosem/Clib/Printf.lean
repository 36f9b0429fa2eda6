import Lmosem.Clib.RoundTrip
import Lmosem.Clib.Strings
import Lmosem.Hal.Uart

-- `printf` and `scanf`, over the line. Neither looks at the size of its buffer.
namespace Lmosem

open Memory

def vsprintf (mem : Mem 32) (buf : Adr) (fmt : List Byte) (args : VaList) :
    Outcome (U32 × Mem 32) :=
  vsnprintf mem buf (~~~(0 : U32) >>> 1) fmt args

def printfLoop (dev : UartInput) (fuel : ℕ) (mem : Mem 32) (out : Adr) :
    ℕ → U32 → Uart → Outcome Uart
  | 0, _, _ => .hang
  | left + 1, i, u => do
      let len ← strlen mem out
      if i < len then do
        let u ← putc dev fuel (mem (out + i)) u
        printfLoop dev fuel mem out left (i + 1) u
      else .ok u

-- `out` is where `g_pcOutBuf` is.
def printf (dev : UartInput) (fuel : ℕ) (mem : Mem 32) (out : Adr) (fmt : List Byte) (args : VaList)
    (u : Uart) : Outcome (U32 × Mem 32 × Uart) := do
  let (len, mem) ← vsprintf mem out fmt args
  let u ← printfLoop dev fuel mem out (2 ^ 32) 0 u
  .ok (len, mem, u)

def scanfLoop (dev : UartInput) (fuel : ℕ) (inb : Adr) :
    ℕ → U32 → Mem 32 → Uart → Outcome (U32 × Mem 32 × Uart)
  | 0, _, _, _ => .hang
  | left + 1, i, mem, u => do
      let (c, u) ← getc dev fuel u
      let u ← putc dev fuel c u
      if c = 0x0d ∨ c = 0x0a then .ok (i, Function.update mem (inb + i) 0, u)
      else scanfLoop dev fuel inb left (i + 1) (Function.update mem (inb + i) c) u

-- `inb` is where `g_pcInBuf` is.
def scanf (dev : UartInput) (fuel left : ℕ) (mem : Mem 32) (inb : Adr) (fmt : List Byte)
    (args : VaList) (u : Uart) : Outcome (U32 × Mem 32 × Uart) := do
  let (_, mem, u) ← scanfLoop dev fuel inb left 0 mem u
  let (num, mem) ← vsscanf mem inb fmt args
  .ok (num, mem, u)

section Printf

variable {dev : UartInput} {fuel : ℕ} {mem : Mem 32} {out : Adr} {fmt : List Byte} {args : VaList}
  {text : List Byte} {p : Printed}

-- The length is measured again in every turn. By induction on what is left of the text.
theorem printfLoop_ok (h : Responds txDone dev fuel) (htext : Holds mem out text) {k i left : ℕ}
    (hk : i + k = text.length) (hleft : k < left) (u : Uart) :
    ∃ n, printfLoop dev fuel mem out left (BitVec.ofNat 32 i) u =
      .ok ⟨n, u.taken, u.sent ++ (text.drop i).flatMap wire⟩ := by
  have hlen := htext.length_lt
  have hlt : BitVec.ofNat 32 i < BitVec.ofNat 32 text.length ↔ i < text.length := by
    rw [BitVec.lt_def, BitVec.toNat_ofNat, BitVec.toNat_ofNat, Nat.mod_eq_of_lt (by omega),
      Nat.mod_eq_of_lt hlen]
  induction k generalizing i left u with
  | zero =>
      obtain ⟨left, rfl⟩ : ∃ l, left = l + 1 := ⟨left - 1, by omega⟩
      refine ⟨u.polls, ?_⟩
      rw [printfLoop, strlen_eq htext, Outcome.ok_bind, if_neg (hlt.not.mpr (by omega)),
        List.drop_of_length_le (by omega), List.flatMap_nil, List.append_nil]
  | succ k ih =>
      obtain ⟨left, rfl⟩ : ∃ l, left = l + 1 := ⟨left - 1, by omega⟩
      have hi : i < text.length := by omega
      obtain ⟨n, hn⟩ := putc_ok h text[i] u
      obtain ⟨n', hn'⟩ := ih (i := i + 1) (by omega) (show k < left by omega)
        ⟨n, u.taken, u.sent ++ wire text[i]⟩ (by
          rw [BitVec.lt_def, BitVec.toNat_ofNat, BitVec.toNat_ofNat, Nat.mod_eq_of_lt (by omega),
            Nat.mod_eq_of_lt hlen])
      refine ⟨n', ?_⟩
      rw [printfLoop, strlen_eq htext, Outcome.ok_bind, if_pos (hlt.mpr hi), htext.getD hi,
        List.getD_eq_getElem _ _ hi, hn, Outcome.ok_bind, List.drop_eq_getElem_cons hi,
        List.flatMap_cons, ← List.append_assoc]
      rw [BitVec.ofNat_add] at hn'
      exact hn'

theorem room_vsprintf (buf : Adr) {n : ℕ} (hn : n < 2 ^ 31 - 1) (hfits : buf.toNat + n < 2 ^ 32) :
    n < room buf (~~~(0 : U32) >>> 1) := by
  have hsize : (~~~(0 : U32) >>> 1 : SizeT).toNat = 2 ^ 31 - 1 := by decide
  unfold room
  split_ifs
  · omega
  · rw [hsize]
    omega

theorem vsprintf_eq (hp : printed 0 (formatPieces fmt args) mem = .ok p)
    (hused : Beside out p.text.length p.used) (hlen : p.text.length < 2 ^ 31 - 1)
    (hfits : out.toNat + p.text.length < 2 ^ 32) :
    vsprintf mem out fmt args = .ok (BitVec.ofNat 32 p.text.length,
      fill p.mem out (p.text.length + 1) fun i => p.text.getD i 0) := by
  rw [← stored_fits p.mem out (room_vsprintf out hlen hfits)]
  exact vsnprintf_of_sent (by decide) hfits fun _ hb => printed_sent hb hp
    (fun a ha => (Nat.min_le_right _ _).trans (hused a ha)) hfits

theorem printf_of_vsprintf (h : Responds txDone dev fuel) {m : Mem 32} {len : U32}
    (hlen : text.length < 2 ^ 32) (hprint : vsprintf mem out fmt args =
      .ok (len, fill m out (text.length + 1) fun i => text.getD i 0)) (u : Uart) :
    ∃ n, printf dev fuel mem out fmt args u =
      .ok (len, fill m out (text.length + 1) fun i => text.getD i 0,
        ⟨n, u.taken, u.sent ++ (text.takeWhile (· ≠ 0)).flatMap wire⟩) := by
  have htext := holds_fill m out hlen
  obtain ⟨n, hn⟩ : ∃ n, printfLoop dev fuel
      (fill m out (text.length + 1) fun i => text.getD i 0) out (2 ^ 32) 0 u =
        .ok ⟨n, u.taken, u.sent ++ (text.takeWhile (· ≠ 0)).flatMap wire⟩ :=
    printfLoop_ok h htext (Nat.zero_add _) htext.length_lt u
  refine ⟨n, ?_⟩
  rw [printf, hprint, Outcome.ok_bind]
  dsimp only
  rw [hn, Outcome.ok_bind]

-- `printf` sends the text of its format, up to a zero in it. The whole text is in the buffer
-- then, or goes over its end: nothing else but the text and its terminator is written.
theorem printf_sends (h : Responds txDone dev fuel) (hp : printed 0 (formatPieces fmt args) mem = .ok p)
    (hused : Beside out p.text.length p.used) (hlen : p.text.length < 2 ^ 31 - 1)
    (hfits : out.toNat + p.text.length < 2 ^ 32) (u : Uart) :
    ∃ n mem', printf dev fuel mem out fmt args u = .ok (BitVec.ofNat 32 p.text.length, mem',
        ⟨n, u.taken, u.sent ++ (p.text.takeWhile (· ≠ 0)).flatMap wire⟩) ∧
      (∀ i ≤ p.text.length, mem' (out + BitVec.ofNat 32 i) = p.text.getD i 0) ∧
      ∀ a, p.text.length < off out a → mem' a = p.mem a := by
  obtain ⟨n, hn⟩ := printf_of_vsprintf h (by omega) (vsprintf_eq hp hused hlen hfits) u
  exact ⟨n, _, hn, fun i hi => fill_add (by omega) (by omega), fun a ha => fill_out ha⟩

end Printf

section Scanf

variable {dev : UartInput} {fuel : ℕ} {m : Mem 32} {inb : Adr} {pre line : List Byte} {stop : Byte}

-- The bytes that come in from reading number `n` of `URXD` on.
def Receives (dev : UartInput) : ℕ → List Byte → Prop
  | _, [] => True
  | n, c :: bytes => (dev.urxd n).setWidth 8 = c ∧ Receives dev (n + 1) bytes

theorem receives_append {n : ℕ} {xs ys : List Byte} :
    Receives dev n (xs ++ ys) ↔ Receives dev n xs ∧ Receives dev (n + xs.length) ys := by
  induction xs generalizing n with
  | nil => simp [Receives]
  | cons x xs ih =>
      rw [List.cons_append, Receives, ih, Receives, and_assoc, List.length_cons, Nat.add_right_comm,
        Nat.add_assoc]

-- Neither the end of a line nor that of a string.
def InLine (c : Byte) : Prop := c ≠ 0 ∧ c ≠ 0x0d ∧ c ≠ 0x0a

theorem echo_ok (htx : Responds txDone dev fuel) (hrx : Responds rxReady dev fuel) {c : Byte}
    {u : Uart} (hbyte : (dev.urxd u.taken).setWidth 8 = c) : ∃ n n',
      getc dev fuel u = .ok (c, ⟨n, u.taken + 1, u.sent⟩) ∧
        putc dev fuel c ⟨n, u.taken + 1, u.sent⟩ = .ok ⟨n', u.taken + 1, u.sent ++ wire c⟩ := by
  obtain ⟨n, hn⟩ := getc_ok hrx u
  obtain ⟨n', hn'⟩ := putc_ok htx c ⟨n, u.taken + 1, u.sent⟩
  exact ⟨n, n', hbyte ▸ hn, hn'⟩

-- By induction on the rest of the line, with what has come in before it.
theorem scanfLoop_ok (htx : Responds txDone dev fuel) (hrx : Responds rxReady dev fuel)
    (hline : ∀ c ∈ line, ¬(c = 0x0d ∨ c = 0x0a)) (hstop : stop = 0x0d ∨ stop = 0x0a) {left : ℕ}
    (hleft : line.length < left) (hlen : (pre ++ line).length < 2 ^ 32) (u : Uart)
    (hrecv : Receives dev u.taken (line ++ [stop])) :
    ∃ n, scanfLoop dev fuel inb left (BitVec.ofNat 32 pre.length)
        (fill m inb pre.length fun j => pre.getD j 0) u =
      .ok (BitVec.ofNat 32 (pre ++ line).length,
        fill m inb ((pre ++ line).length + 1) fun j => (pre ++ line).getD j 0,
        ⟨n, u.taken + (line.length + 1), u.sent ++ (line ++ [stop]).flatMap wire⟩) := by
  induction line generalizing pre left u with
  | nil =>
      obtain ⟨left, rfl⟩ : ∃ l, left = l + 1 := ⟨left - 1, by omega⟩
      obtain ⟨hbyte, -⟩ := hrecv
      obtain ⟨n, n', hget, hput⟩ := echo_ok htx hrx hbyte
      have hend := fill_succ m inb (fun j => pre.getD j 0) (n := pre.length)
        (by simpa using hlen)
      rw [List.getD_eq_default _ _ (Nat.le_refl _)] at hend
      refine ⟨n', ?_⟩
      rw [scanfLoop, hget, Outcome.ok_bind]
      dsimp only
      rw [hput, Outcome.ok_bind, if_pos hstop, hend]
      simp
  | cons c line ih =>
      obtain ⟨left, rfl⟩ : ∃ l, left = l + 1 := ⟨left - 1, by omega⟩
      obtain ⟨hbyte, hrest⟩ := hrecv
      obtain ⟨hc, hline⟩ := List.forall_mem_cons.mp hline
      obtain ⟨n, n', hget, hput⟩ := echo_ok htx hrx hbyte
      rw [List.append_cons] at hlen ⊢
      have hpre : pre.length < 2 ^ 32 := by
        simp only [List.length_append] at hlen
        omega
      obtain ⟨n'', hn⟩ := ih hline (show line.length < left by simpa using hleft) hlen
        ⟨n', u.taken + 1, u.sent ++ wire c⟩ hrest
      rw [← fill_concat m inb pre c hpre, List.length_append, List.length_singleton,
        BitVec.ofNat_add] at hn
      refine ⟨n'', ?_⟩
      rw [scanfLoop, hget, Outcome.ok_bind]
      dsimp only
      rw [hput, Outcome.ok_bind, if_neg hc]
      refine hn.trans ?_
      simp only [List.cons_append, List.flatMap_cons, List.append_assoc, List.length_cons]
      congr 4
      omega

variable {left : ℕ}

-- `scanf` echoes a line up to its end, and scans it.
theorem scanf_line (htx : Responds txDone dev fuel) (hrx : Responds rxReady dev fuel)
    (hline : ∀ c ∈ line, InLine c) (hstop : stop = 0x0d ∨ stop = 0x0a) (hleft : line.length < left)
    (hlen : line.length < 2 ^ 32) {u : Uart} (hrecv : Receives dev u.taken (line ++ [stop]))
    {fmt : List Byte} {args : VaList} {num : U32} {m' : Mem 32}
    (hscan : vsscanf (fill m inb (line.length + 1) fun j => line.getD j 0) inb fmt args =
      .ok (num, m')) :
    ∃ n, scanf dev fuel left m inb fmt args u =
      .ok (num, m', ⟨n, u.taken + (line.length + 1), u.sent ++ (line ++ [stop]).flatMap wire⟩) := by
  obtain ⟨n, hn⟩ : ∃ n, scanfLoop dev fuel inb left 0 (fill m inb ([] : List Byte).length _) u =
      .ok (BitVec.ofNat 32 line.length, fill m inb (line.length + 1) fun j => line.getD j 0,
        ⟨n, u.taken + (line.length + 1), u.sent ++ (line ++ [stop]).flatMap wire⟩) :=
    scanfLoop_ok htx hrx (fun c hc => not_or.mpr (hline c hc).2) hstop hleft
      (show ([] ++ line).length < 2 ^ 32 from hlen) u hrecv
  rw [List.length_nil, fill_zero] at hn
  refine ⟨n, ?_⟩
  rw [scanf, hn, Outcome.ok_bind]
  dsimp only
  rw [hscan, Outcome.ok_bind]

-- White space and integers are read back like that.
theorem scanf_pieces (htx : Responds txDone dev fuel) (hrx : Responds rxReady dev fuel)
    {qs : List Piece} (hqs : Legible qs) (htext : line = qs.flatMap Piece.text)
    (hline : ∀ c ∈ line, InLine c) (hleft : line.length < left)
    (hend : inb.toNat + line.length < 2 ^ 32) {u : Uart}
    (hrecv : Receives dev u.taken (line ++ [char '\n'])) (m : Mem 32) {targets : VaList}
    (hout : Beside inb (line.length + 1) (written qs targets)) :
    ∃ n, scanf dev fuel left m inb (qs.flatMap Piece.scan) targets u =
      .ok ((readBack qs targets 0 (fill m inb (line.length + 1) fun j => line.getD j 0)).1,
        (readBack qs targets 0 (fill m inb (line.length + 1) fun j => line.getD j 0)).2,
        ⟨n, u.taken + (line.length + 1), u.sent ++ (line ++ [char '\n']).flatMap wire⟩) := by
  have hreads : Reads inb line.length (fill m inb (line.length + 1) fun j => line.getD j 0) inb line := by
    rw [htext] at hend ⊢
    exact hqs.reads m inb (by omega)
  refine scanf_line htx hrx hline (Or.inr rfl) hleft (by omega) hrecv ?_
  exact vsscanf_run _ _ _ _ hqs hreads hend rfl (by rw [htext]) hout (Nat.lt_succ_self _)

theorem vsscanf_nil {m : Mem 32} (h : m inb = 0) (fmt : List Byte) (args : VaList) :
    vsscanf m inb fmt args = .ok (0, m) :=
  While.tryLoop_inr (if_pos (Or.inr h))

-- A line end alone is a line in which there is nothing to read.
theorem scanf_empty (htx : Responds txDone dev fuel) (hrx : Responds rxReady dev fuel)
    (hstop : stop = 0x0d ∨ stop = 0x0a) (hleft : 0 < left) {u : Uart}
    (hrecv : Receives dev u.taken [stop]) (m : Mem 32) (fmt : List Byte) (args : VaList) :
    ∃ m' v, scanf dev fuel left m inb fmt args u = .ok (0, m', v) ∧ v.taken = u.taken + 1 := by
  have hzero : fill m inb 1 (fun _ => 0) inb = 0 := by
    rw [fill_off (by rw [off_self]; exact Nat.one_pos)]
  obtain ⟨n, hn⟩ := scanf_line htx hrx (fun c hc => absurd hc List.not_mem_nil) hstop hleft
    (Nat.two_pow_pos 32) hrecv (vsscanf_nil hzero fmt args)
  exact ⟨_, _, hn, rfl⟩

end Scanf

section Line

variable {devA devB : UartInput} {fuel left : ℕ} {mem : Mem 32} {out inb : Adr}
  {fmt line : List Byte} {args : VaList} {qs : List Piece}

-- A line on the wire has both characters at its end.
theorem wire_line (hline : ∀ c ∈ line, InLine c) :
    (line ++ [char '\n']).takeWhile (· ≠ 0) = line ++ [char '\n'] ∧
      (line ++ [char '\n']).flatMap wire = line ++ [char '\n'] ++ [char '\r'] := by
  constructor
  · refine List.takeWhile_eq_self_iff.mpr fun c hc => decide_eq_true ?_
    rcases List.mem_append.mp hc with hc | hc
    · exact (hline c hc).1
    · rw [List.mem_singleton.mp hc]
      decide
  · have hself : line.flatMap wire = line := by
      induction line with
      | nil => rfl
      | cons c line ih =>
          obtain ⟨hc, hrest⟩ := List.forall_mem_cons.mp hline
          rw [List.flatMap_cons, ih hrest, wire, if_neg (show c ≠ char '\n' from hc.2.2),
            List.singleton_append]
    rw [List.flatMap_append, hself, List.append_assoc]
    rfl

-- A line of white space and integers is sent.
theorem printf_line (h : Responds txDone devA fuel)
    (hps : formatPieces fmt args = qs ++ [.lit (char '\n')]) (hread : ∀ x ∈ qs, x.Readable)
    (htext : line = qs.flatMap Piece.text) (hline : ∀ c ∈ line, InLine c)
    (hlen : line.length + 1 < 2 ^ 31 - 1) (hfits : out.toNat + (line.length + 1) < 2 ^ 32) (u : Uart) :
    ∃ n mem', printf devA fuel mem out fmt args u = .ok (BitVec.ofNat 32 (line.length + 1), mem',
      ⟨n, u.taken, u.sent ++ (line ++ [char '\n'] ++ [char '\r'])⟩) := by
  have hread' : ∀ x ∈ qs ++ [Piece.lit (char '\n')], x.Readable := by
    intro x hx
    rcases List.mem_append.mp hx with hx | hx
    · exact hread x hx
    · rw [List.mem_singleton.mp hx]
      rfl
  have hbytes : (qs ++ [Piece.lit (char '\n')]).flatMap Piece.text = line ++ [char '\n'] := by
    rw [List.flatMap_append, ← htext]
    rfl
  have hcount : (line ++ [char '\n']).length = line.length + 1 := List.length_append
  have hp := printed_text _ (hps ▸ takePieces_made _ fmt args) hread' 0 mem
  rw [hbytes, ← hps] at hp
  have hprint := vsprintf_eq hp (fun a ha => absurd ha List.not_mem_nil) (hcount ▸ hlen)
    (hcount ▸ hfits)
  obtain ⟨n, hn⟩ := printf_of_vsprintf h (hcount ▸ (by omega)) hprint u
  rw [(wire_line hline).1, (wire_line hline).2, hcount] at hn
  exact ⟨n, _, hn⟩

-- A line of integers that one machine prints, another one reads, up to the first number with a
-- plus. The character that `putc` adds to it is an empty line to the next `scanf`, which comes back
-- at once with nothing read.
theorem scanf_printf (htxA : Responds txDone devA fuel) (htxB : Responds txDone devB fuel)
    (hrxB : Responds rxReady devB fuel) (hps : formatPieces fmt args = qs ++ [.lit (char '\n')])
    (hread : ∀ x ∈ qs, x.Readable) (hapart : qs.IsChain fun x y => x.isLit = true ∨ y.isLit = true)
    (htext : line = qs.flatMap Piece.text) (hline : ∀ c ∈ line, InLine c) (hleft : line.length < left)
    (hlen : line.length + 1 < 2 ^ 31 - 1) (hfits : out.toNat + (line.length + 1) < 2 ^ 32)
    (hend : inb.toNat + line.length < 2 ^ 32) (u v : Uart) (memB : Mem 32) {targets : VaList}
    (hout : Beside inb (line.length + 1) (written qs targets)) :
    (∃ n mem', printf devA fuel mem out fmt args u = .ok (BitVec.ofNat 32 (line.length + 1), mem',
      ⟨n, u.taken, u.sent ++ (line ++ [char '\n'] ++ [char '\r'])⟩)) ∧
    (Receives devB v.taken (line ++ [char '\n'] ++ [char '\r']) → ∃ v',
      scanf devB fuel left memB inb (qs.flatMap Piece.scan) targets v =
        .ok ((readBack qs targets 0 (fill memB inb (line.length + 1) fun j => line.getD j 0)).1,
          (readBack qs targets 0 (fill memB inb (line.length + 1) fun j => line.getD j 0)).2, v') ∧
      ∀ m fmt' targets', ∃ m' v'', scanf devB fuel left m inb fmt' targets' v' = .ok (0, m', v'') ∧
        v''.taken = v.taken + (line.length + 2)) := by
  have hmade : ∀ x ∈ qs, x.Made := fun x hx =>
    (hps ▸ takePieces_made _ fmt args : ∀ x ∈ qs ++ [Piece.lit (char '\n')], x.Made) x
      (List.mem_append_left _ hx)
  refine ⟨printf_line htxA hps hread htext hline hlen hfits u, fun hrecv => ?_⟩
  obtain ⟨hfirst, hsecond⟩ := receives_append.mp hrecv
  rw [List.length_append, List.length_singleton] at hsecond
  obtain ⟨n, hn⟩ := scanf_pieces htxB hrxB ⟨hmade, hread, hapart⟩ htext hline hleft hend hfirst memB
    hout
  refine ⟨_, hn, fun m fmt' targets' => ?_⟩
  obtain ⟨m', v'', hv, htaken⟩ := scanf_empty htxB hrxB (Or.inl rfl) (show 0 < left by omega)
    (u := ⟨n, v.taken + (line.length + 1), _⟩) hsecond m fmt' targets'
  exact ⟨m', v'', hv, htaken⟩

end Line

-- A device that is never busy, on a line that carries these bytes.
def readyUart (bytes : List Byte) : UartInput := ⟨fun _ => 9, fun i => (bytes.getD i 0).setWidth 32⟩

theorem readyUart_responds (bytes : List Byte) :
    Responds txDone (readyUart bytes) 1 ∧ Responds rxReady (readyUart bytes) 1 := by
  have husr2 : ∀ i, (readyUart bytes).usr2 i = 9 := fun _ => rfl
  constructor <;> refine fun i => ⟨0, Nat.zero_lt_one, ?_⟩ <;> rw [husr2] <;> decide

-- `%d` and a line feed, of 42.
theorem printf_sends_42 : ∃ n mem', printf (readyUart []) 1 (fun _ => 0) 0x87900000
      [char '%', char 'd', char '\n'] (fun _ => 42) ⟨0, 0, []⟩ =
        .ok (BitVec.ofNat 32 3, mem', ⟨n, 0, [char '4', char '2', char '\n', char '\r']⟩) := by
  have hp : printed 0 (formatPieces [char '%', char 'd', char '\n'] fun _ => 42) (fun _ => 0) =
      .ok ⟨[char '4', char '2', char '\n'], [], fun _ => 0⟩ := rfl
  obtain ⟨n, mem', hn, -⟩ := printf_sends (readyUart_responds []).1 hp
    (fun a ha => absurd ha List.not_mem_nil) (by decide)
    (show (0x87900000 : Adr).toNat + 3 < 2 ^ 32 by decide) ⟨0, 0, []⟩
  exact ⟨n, mem', hn⟩

-- Another machine scans it with `%d`.
theorem scanf_printf_42 :
    (∃ n mem', printf (readyUart []) 1 (fun _ => 0) 0x87900000 [char '%', char 'd', char '\n']
      (fun _ => 42) ⟨0, 0, []⟩ = .ok (BitVec.ofNat 32 3, mem',
        ⟨n, 0, [char '4', char '2', char '\n', char '\r']⟩)) ∧
    ∃ mem' v', scanf (readyUart [char '4', char '2', char '\n', char '\r']) 1 80 (fun _ => 0)
      0x87900400 [char '%', char 'd'] (fun _ => 0x2000) ⟨0, 0, []⟩ = .ok (1, mem', v') ∧
        mem' 0x2000 = 42 := by
  have hline : ∀ c ∈ [char '4', char '2'], InLine c :=
    List.forall_mem_cons.mpr ⟨by unfold InLine; decide,
      List.forall_mem_singleton.mpr (by unfold InLine; decide)⟩
  obtain ⟨hsent, hscan⟩ := scanf_printf (readyUart_responds []).1
    (readyUart_responds [char '4', char '2', char '\n', char '\r']).1
    (readyUart_responds [char '4', char '2', char '\n', char '\r']).2
    (show formatPieces [char '%', char 'd', char '\n'] (fun _ => 42) =
      [.conv ⟨0, -1, -1, none⟩ (char 'd') fun _ => 42] ++ [.lit (char '\n')] from rfl)
    (List.forall_mem_singleton.mpr ⟨⟨rfl, by decide⟩, by decide, fun h => by cases h.2.1⟩)
    (.singleton _) (show [char '4', char '2'] = _ from rfl) hline (show 2 < 80 by decide) (by decide)
    (show (0x87900000 : Adr).toNat + 3 < 2 ^ 32 by decide)
    (show (0x87900400 : Adr).toNat + 2 < 2 ^ 32 by decide) ⟨0, 0, []⟩ ⟨0, 0, []⟩ (fun _ => 0)
    (show Beside 0x87900400 3 (written _ fun _ => 0x2000) by decide +kernel)
  obtain ⟨v', hv, -⟩ := hscan ⟨rfl, rfl, rfl, rfl, trivial⟩
  exact ⟨hsent, _, v', hv, by decide⟩

end Lmosem
