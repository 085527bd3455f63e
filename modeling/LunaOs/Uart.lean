import LunaOs.Lib.Uart16550
import LunaOs.StringOps

/-! # The serial log of `drivers/serial/uart.c`

`uart_putc` polls the line status until the transmitter is empty.  At each poll the transmitter may have
sent a byte or not, and the other bits of the status are anything: `poll n` is what happens at poll `n`.
A transmitter that does not stop for good gets every byte out, in order and once, whatever state the
firmware left it in (`uart_log`). -/

namespace LunaOs

open Uart16550

/-- The registers of COM1, by their offset from `COM1_PORT`, with the polls so far. -/
structure Com1 where
  uart : Uart
  polls : ℕ

/-- What happens to the device between two reads of the line status. -/
structure Poll where
  shifts : Bool
  otherBits : UInt8

variable (poll : ℕ → Poll)

def Com1.outb (s : Com1) (offset : ℕ) (v : UInt8) : Com1 := { s with uart := s.uart.write offset v }

/-- `inb(COM1_PORT + 5)` -/
def Com1.lineStatus (s : Com1) : UInt8 × Com1 :=
  let uart := if (poll s.polls).shifts then s.uart.shift else s.uart
  (uart.lineStatus (poll s.polls).otherBits, ⟨uart, s.polls + 1⟩)

def uartInit (s : Com1) : Com1 :=
  let s := s.outb 1 0x00
  let s := s.outb 3 0x80
  let s := s.outb 0 0x03
  let s := s.outb 1 0x00
  let s := s.outb 3 0x03
  let s := s.outb 2 0xC7
  s.outb 4 0x0B

/-- `while ((inb(COM1_PORT + 5) & 0x20) == 0);` for at most `fuel` turns. -/
def waitEmpty : ℕ → Com1 → Option Com1
  | 0, _ => none
  | fuel + 1, s =>
      let (status, s) := s.lineStatus poll
      if status &&& 0x20 = 0 then waitEmpty fuel s else some s

/-- `uart_putc`: the wait, at most `fuel` polls long, and the byte. -/
def uartPutc (fuel : ℕ) (s : Com1) (c : UInt8) : Option Com1 :=
  (waitEmpty poll fuel s).map fun s => s.outb 0 c

/-- `uart_puts` for a string with these characters. -/
def uartPuts (fuel : ℕ) : Com1 → List UInt8 → Option Com1
  | s, [] => some s
  | s, c :: cs => (uartPutc poll fuel s c).bind fun s => uartPuts fuel s cs

/-! ### The initialization -/

theorem divisor_written (d : UInt16) :
    (((d &&& (0xFF00 : UInt16)) ||| (0x03 : UInt8).toUInt16) &&& (0x00FF : UInt16)) |||
      (0x00 : UInt8).toUInt16 <<< 8 = 3 := by
  have hdistrib : ∀ a b c : UInt16, (a ||| b) &&& c = (a &&& c) ||| (b &&& c) := by
    intro a b c
    apply UInt16.toBitVec_inj.mp
    ext i hi
    simp [Bool.and_or_distrib_right]
  rw [hdistrib, UInt16.and_assoc, show (0xFF00 : UInt16) &&& 0x00FF = 0 from rfl, UInt16.and_zero]
  rfl

/-- **The registers after `uart_init`**: 38400 baud, 8 bits, no parity, one stop bit, with the FIFO.  What
the transmitter held is gone, and nothing is sent.  Interrupts are off, unless the firmware has left the
divisor in the place of the register. -/
theorem uartInit_eq (s : Com1) : uartInit s =
    { s with uart :=
      { ier := if s.uart.dlab then s.uart.ier else 0
        lcr := 0x03, mcr := 0x0B, fifo := true, divisor := 3, pending := [], sent := s.uart.sent } } := by
  have hfirst : ∃ d, s.uart.write 1 0x00 =
      { s.uart with ier := if s.uart.dlab then s.uart.ier else 0, divisor := d } := by
    by_cases hdlab : s.uart.dlab
    · exact ⟨_, by rw [if_pos hdlab]; exact if_pos hdlab⟩
    · exact ⟨s.uart.divisor, by rw [if_neg hdlab]; exact if_neg hdlab⟩
  obtain ⟨d, hfirst⟩ := hfirst
  have hlatch : ∀ u : Uart, (((u.write 3 0x80).write 0 0x03).write 1 0x00) =
      { u with lcr := 0x80, divisor := 3 } := by
    intro u
    have hdlab : (u.write 3 0x80).dlab := by
      show (0x80 : UInt8) &&& 0x80 ≠ 0
      decide
    have hlow : (u.write 3 0x80).write 0 0x03 =
        { u with lcr := 0x80, divisor := (u.divisor &&& (0xFF00 : UInt16)) ||| (0x03 : UInt8).toUInt16 } :=
      if_pos hdlab
    rw [hlow]
    refine (if_pos (show (0x80 : UInt8) &&& 0x80 ≠ 0 by decide)).trans ?_
    rw [divisor_written]
  unfold uartInit Com1.outb
  dsimp only
  rw [hfirst, hlatch]
  rfl

/-! ### Output -/

theorem lineStatus_spec (s : Com1) :
    (s.lineStatus poll).2.uart.stream = s.uart.stream ∧
      Uart.SameRegisters s.uart (s.lineStatus poll).2.uart ∧
      ((s.lineStatus poll).1 &&& 0x20 = 0 ↔ (s.lineStatus poll).2.uart.pending ≠ []) := by
  unfold Com1.lineStatus
  dsimp only
  refine ⟨?_, ?_, Uart.lineStatus_empty_iff _⟩
  · split_ifs
    · exact Uart.shift_stream
    · rfl
  · split_ifs
    · exact Uart.shift_registers s.uart
    · exact Uart.SameRegisters.refl s.uart

theorem lineStatus_pending_length (s : Com1) : (s.lineStatus poll).2.uart.pending.length =
    if (poll s.polls).shifts then s.uart.pending.length - 1 else s.uart.pending.length := by
  unfold Com1.lineStatus
  dsimp only
  split_ifs
  · exact Uart.shift_pending_length s.uart
  · rfl

variable {poll}

theorem waitEmpty_spec {fuel : ℕ} {s s' : Com1} (h : waitEmpty poll fuel s = some s') :
    s'.uart.stream = s.uart.stream ∧ Uart.SameRegisters s.uart s'.uart ∧ s'.uart.pending = [] := by
  induction fuel generalizing s with
  | zero => cases h
  | succ fuel ih =>
      obtain ⟨hstream, hregisters, hempty⟩ := lineStatus_spec poll s
      unfold waitEmpty at h
      dsimp only at h
      split_ifs at h with hfull
      · obtain ⟨hstream', hregisters', hpending⟩ := ih h
        exact ⟨hstream'.trans hstream, hregisters.trans hregisters', hpending⟩
      · obtain rfl := Option.some.inj h
        exact ⟨hstream, hregisters, not_not.mp fun hne => hfull (hempty.mpr hne)⟩

/-- The transmitter never stops for good. -/
def Shifts (poll : ℕ → Poll) : Prop := ∀ n, ∃ m, n ≤ m ∧ (poll m).shifts = true

theorem waitEmpty_mono {fuel n : ℕ} {s s' : Com1} (h : waitEmpty poll fuel s = some s') (hle : fuel ≤ n) :
    waitEmpty poll n s = some s' := by
  induction fuel generalizing s n with
  | zero => cases h
  | succ fuel ih =>
      obtain ⟨n, rfl⟩ : ∃ k, n = k + 1 := ⟨n - 1, by omega⟩
      unfold waitEmpty at h ⊢
      dsimp only at h ⊢
      split_ifs at h ⊢ with hfull
      · exact ih h (by omega)
      · exact h

theorem waitEmpty_succ {fuel : ℕ} {s s' : Com1} (h : waitEmpty poll fuel (s.lineStatus poll).2 = some s') :
    ∃ s', waitEmpty poll (fuel + 1) s = some s' := by
  unfold waitEmpty
  dsimp only
  split_ifs
  · exact ⟨s', h⟩
  · exact ⟨_, rfl⟩

theorem waitEmpty_one {s : Com1} (h : (s.lineStatus poll).2.uart.pending = []) :
    waitEmpty poll 1 s = some (s.lineStatus poll).2 :=
  if_neg fun hfull => (lineStatus_spec poll s).2.2.mp hfull h

theorem lineStatus_polls (s : Com1) : (s.lineStatus poll).2.polls = s.polls + 1 := rfl

/-- The loop ends: by induction on the bytes that wait, and on the polls until the next of them goes out. -/
theorem waitEmpty_ends (hpoll : Shifts poll) (s : Com1) : ∃ fuel s', waitEmpty poll fuel s = some s' := by
  induction hk : s.uart.pending.length using Nat.strong_induction_on generalizing s with
  | _ k ih =>
      have huntil : ∀ d (s : Com1), s.uart.pending.length = k → (poll (s.polls + d)).shifts = true →
          ∃ fuel s', waitEmpty poll fuel s = some s' := by
        intro d
        induction d with
        | zero =>
            intro s hs hshift
            by_cases hempty : (s.lineStatus poll).2.uart.pending = []
            · exact ⟨1, _, waitEmpty_one hempty⟩
            · have hlen := lineStatus_pending_length poll s
              have hpos := List.length_pos_iff.mpr hempty
              rw [if_pos (show (poll s.polls).shifts = true from hshift), hs] at hlen
              obtain ⟨fuel, s', hrest⟩ := ih (k - 1) (by omega) (s.lineStatus poll).2 hlen
              exact ⟨fuel + 1, waitEmpty_succ hrest⟩
        | succ d ihd =>
            intro s hs hshift
            have hlen := lineStatus_pending_length poll s
            by_cases hempty : (s.lineStatus poll).2.uart.pending = []
            · exact ⟨1, _, waitEmpty_one hempty⟩
            · have hpos := List.length_pos_iff.mpr hempty
              split_ifs at hlen with hfirst
              · obtain ⟨fuel, s', hrest⟩ := ih (k - 1) (by omega) (s.lineStatus poll).2 (hlen.trans (by rw [hs]))
                exact ⟨fuel + 1, waitEmpty_succ hrest⟩
              · have hshift' : (poll ((s.lineStatus poll).2.polls + d)).shifts = true := by
                  rw [lineStatus_polls, Nat.add_assoc, Nat.add_comm 1 d]
                  exact hshift
                obtain ⟨fuel, s', hrest⟩ := ihd (s.lineStatus poll).2 (hlen.trans hs) hshift'
                exact ⟨fuel + 1, waitEmpty_succ hrest⟩
      obtain ⟨m, hle, hshift⟩ := hpoll s.polls
      refine huntil (m - s.polls) s hk ?_
      rwa [Nat.add_sub_cancel' hle]

theorem uartPutc_spec {fuel : ℕ} {s s' : Com1} (hdlab : ¬ s.uart.dlab) {c : UInt8}
    (h : uartPutc poll fuel s c = some s') :
    s'.uart.stream = s.uart.stream ++ [s.uart.frame c] ∧ Uart.SameRegisters s.uart s'.uart ∧
      s'.uart.pending = [c] := by
  obtain ⟨t, hwait, rfl⟩ := Option.map_eq_some_iff.mp h
  obtain ⟨hstream, hregisters, hempty⟩ := waitEmpty_spec hwait
  obtain ⟨-, hlcr, -, -, hdivisor⟩ := hregisters
  have hdlab' : ¬ t.uart.dlab := by
    unfold Uart.dlab at hdlab ⊢
    rwa [hlcr]
  obtain ⟨hwrite, hpending, hsame⟩ := Uart.write_stream hempty hdlab' c
  refine ⟨?_, Uart.SameRegisters.trans (waitEmpty_spec hwait).2.1 hsame, hpending⟩
  show (t.uart.write 0 c).stream = _
  rw [hwrite, hstream]
  unfold Uart.frame
  rw [hlcr, hdivisor]

theorem uartPuts_spec (hpoll : Shifts poll) (cs : List UInt8) (s : Com1) (hdlab : ¬ s.uart.dlab)
    (hpending : s.uart.pending.length ≤ 1) :
    ∃ fuel s', (∀ n, fuel ≤ n → uartPuts poll n s cs = some s') ∧
      s'.uart.stream = s.uart.stream ++ cs.map s.uart.frame ∧ Uart.SameRegisters s.uart s'.uart ∧
      s'.uart.pending.length ≤ 1 := by
  induction cs generalizing s with
  | nil => exact ⟨0, s, fun _ _ => rfl, by simp, Uart.SameRegisters.refl _, hpending⟩
  | cons c cs ih =>
      obtain ⟨fuel, t, hwait⟩ := waitEmpty_ends hpoll s
      have hputc : ∀ n, fuel ≤ n → uartPutc poll n s c = some (t.outb 0 c) := by
        intro n hn
        unfold uartPutc
        rw [waitEmpty_mono hwait hn]
        rfl
      obtain ⟨hstream, hregisters, hlast⟩ := uartPutc_spec hdlab (hputc fuel (Nat.le_refl _))
      obtain ⟨-, hlcr, -, -, hdivisor⟩ := id hregisters
      have hdlab' : ¬ (t.outb 0 c).uart.dlab := by
        unfold Uart.dlab at hdlab ⊢
        rwa [hlcr]
      obtain ⟨fuel', s', hrest, hstream', hregisters', hpending'⟩ := ih (t.outb 0 c) hdlab' (by rw [hlast]; rfl)
      refine ⟨max fuel fuel', s', fun n hn => ?_, ?_, hregisters.trans hregisters', hpending'⟩
      · show (uartPutc poll n s c).bind _ = _
        rw [hputc n (le_trans (le_max_left _ _) hn), Option.bind_some]
        exact hrest n (le_trans (le_max_right _ _) hn)
      · have hframe : (t.outb 0 c).uart.frame = s.uart.frame := by
          funext b
          unfold Uart.frame
          rw [hlcr, hdivisor]
        rw [hstream', hstream, hframe, List.map_cons, List.append_assoc, List.singleton_append]

theorem uartPuts_append (fuel : ℕ) (s : Com1) (cs ds : List UInt8) :
    uartPuts poll fuel s (cs ++ ds) = (uartPuts poll fuel s cs).bind fun s => uartPuts poll fuel s ds := by
  induction cs generalizing s with
  | nil => rfl
  | cons c cs ih =>
      show (uartPutc poll fuel s c).bind _ = ((uartPutc poll fuel s c).bind _).bind _
      rw [Option.bind_assoc]
      exact congrArg _ (funext fun s => ih s)

/-- The calls of `uart_puts` for several strings write the strings one behind the other. -/
theorem foldlM_uartPuts (fuel : ℕ) (s : Com1) (texts : List CString) :
    texts.foldlM (fun s t => uartPuts poll fuel s t.chars) s =
      uartPuts poll fuel s (texts.flatMap CString.chars) := by
  induction texts generalizing s with
  | nil => rfl
  | cons t texts ih =>
      rw [List.foldlM_cons, List.flatMap_cons, uartPuts_append]
      exact congrArg _ (funext fun s => ih s)

/-- **The serial log**: after `uart_init`, whatever state the firmware left the device in, the calls of
`uart_puts` return, and the line carries exactly their characters, in order and each once, as 38400 baud
and 8N1. -/
theorem uart_log (hpoll : Shifts poll) (s : Com1) (texts : List CString) : ∃ fuel s',
    (∀ n, fuel ≤ n → texts.foldlM (fun s t => uartPuts poll n s t.chars) (uartInit s) = some s') ∧
      s'.uart.stream = s.uart.sent ++ (texts.flatMap CString.chars).map (fun b => ⟨b, 3, 0x03⟩) ∧
      s'.uart.pending.length ≤ 1 := by
  have hdlab : ¬ (uartInit s).uart.dlab := by
    rw [uartInit_eq]
    show ¬ (0x03 : UInt8) &&& 0x80 ≠ 0
    decide
  have hpending : (uartInit s).uart.pending.length ≤ 1 := by
    rw [uartInit_eq]
    exact Nat.zero_le 1
  obtain ⟨fuel, s', hputs, hstream, _, hlast⟩ :=
    uartPuts_spec hpoll (texts.flatMap CString.chars) (uartInit s) hdlab hpending
  refine ⟨fuel, s', fun n hn => (foldlM_uartPuts n _ texts).trans (hputs n hn), ?_, hlast⟩
  rw [hstream, uartInit_eq]
  unfold Uart.stream Uart.frame
  simp

/-- A device that the firmware left with the divisor in place and a byte in the transmitter. -/
def leftUart : Com1 := ⟨⟨1, 0x80, 0, false, 12, [0x3F], []⟩, 0⟩

def okText : CString := ⟨[0x4F, 0x4B], by simp⟩

theorem uart_log_leftUart : ∃ fuel s',
    (∀ n, fuel ≤ n → [okText].foldlM (fun s t => uartPuts (fun _ => ⟨true, 0⟩) n s t.chars)
      (uartInit leftUart) = some s') ∧
      s'.uart.stream = leftUart.uart.sent ++ ([okText].flatMap CString.chars).map (fun b => ⟨b, 3, 0x03⟩) ∧
      s'.uart.pending.length ≤ 1 :=
  uart_log (fun n => ⟨n, Nat.le_refl n, rfl⟩) leftUart [okText]

end LunaOs
