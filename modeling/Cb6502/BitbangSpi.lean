import Cb6502.Lib.Serial
import Cb6502.Lib.Steps
import Cb6502.Via
import Cb6502.Sdcard

/- The bit-banged SPI bus of the board (plat/cb6502/bitbang_spi.c), between port B of the VIA and
   the SD card. The waveform that the port has shown is `SpiLines`; the calls to the card are kept
   beside the card (`SpiDevice.recorded`), which does not see them.

   What is proved:
     1. `bitbangPortbWrite_recorded` (the bus does the same with and without the record).
     2. `SpiInSync.step_iff` (one value of the port), `framed_iff` (every device, every waveform).
     3. `spi_bytes_framed_iff` (bytes are exchanged bit for bit with the SD card exactly if, each time
        the selected card gets its first clock, a multiple of eight clocks have gone before). -/
namespace Cb6502

open Serial

variable {σ φ : Type}

def SPI_CLK : BitVec 8 := 0x01
def SPI_MOSI : BitVec 8 := 0x02
def SPI_MISO : BitVec 8 := 0x04
def SPI_SS_SDCARD : BitVec 8 := 0x10
def SPI_DETECT : BitVec 8 := 0x80

/-- What is called on the SPI bus. -/
structure SpiDevice (σ : Type) where
  spiGet : σ → BitVec 8 × σ
  spiWrite : BitVec 8 → σ → σ
  detect : σ → Bool

/-- `sdcard_detect` -/
def sdcardDetect (cxt : Sdcard φ) : Bool := cxt.init

def sdcard (file : SdImage φ) : SpiDevice (Sdcard φ) where
  spiGet := sdcardSpiGet
  spiWrite byte cxt := sdcardSpiWrite file cxt byte
  detect := sdcardDetect

/-- `bitbang_spi_cxt_t`, with the device beside it. -/
structure BitbangSpi (σ : Type) where
  via : Via
  spiCnt : BitVec 8 := 0
  spiOut : BitVec 8 := 0
  spiClkState : Bool := false
  sdcardSel : Bool := false
  sdcardIn : BitVec 8 := 0
  card : σ

/-- `bitbang_spi_update_outputs` -/
def bitbangSpiUpdateOutputs (dev : SpiDevice σ) (cxt : BitbangSpi σ) : BitbangSpi σ :=
  let data : BitVec 8 := 0
  let data :=
    if cxt.sdcardSel then if cxt.sdcardIn &&& 0x80 ≠ 0 then data ||| SPI_MISO else data
    else data ||| SPI_MISO
  let data := if dev.detect cxt.card then data ||| SPI_DETECT else data
  { cxt with via := viaWriteDataPort cxt.via false (SPI_MISO ||| SPI_DETECT) data }

/-- The byte to send is taken before the first clock, and shifted before each other one. -/
def bitbangLatch (dev : SpiDevice σ) (cxt : BitbangSpi σ) : BitbangSpi σ :=
  if cxt.sdcardSel then
    if cxt.spiCnt = 0 then
      let (byte, card) := dev.spiGet cxt.card
      { cxt with sdcardIn := byte, card }
    else { cxt with sdcardIn := cxt.sdcardIn <<< 1 }
  else cxt

/-- A rising edge of the clock, in `bitbang_portb_write`. -/
def bitbangClock (dev : SpiDevice σ) (cxt : BitbangSpi σ) (data : BitVec 8) : BitbangSpi σ :=
  let cxt := bitbangLatch dev cxt
  let cxt := { cxt with
    spiOut := cxt.spiOut <<< 1 ||| if data &&& SPI_MOSI ≠ 0 then 1 else 0
    spiCnt := cxt.spiCnt + 1 }
  if cxt.spiCnt = 8 then
    let cxt := if cxt.sdcardSel then { cxt with card := dev.spiWrite cxt.spiOut cxt.card } else cxt
    { cxt with spiCnt := 0, spiOut := 0 }
  else cxt

/-- `bitbang_portb_write` -/
def bitbangPortbWrite (dev : SpiDevice σ) (cxt : BitbangSpi σ) (data : BitVec 8) : BitbangSpi σ :=
  let cxt := { cxt with sdcardSel := data &&& SPI_SS_SDCARD = 0 }
  let cxt := if data &&& SPI_CLK ≠ 0 ∧ !cxt.spiClkState then bitbangClock dev cxt data else cxt
  bitbangSpiUpdateOutputs dev { cxt with spiClkState := data &&& SPI_CLK = SPI_CLK }

/-- `bitbang_spi_init` -/
def bitbangSpiInit (dev : SpiDevice σ) (via : Via) (card : σ) : BitbangSpi σ :=
  bitbangSpiUpdateOutputs dev { via, card }

/-- The level that the CPU reads on MISO. -/
def BitbangSpi.miso (cxt : BitbangSpi σ) : Bool := cxt.via.portb.pinIn &&& SPI_MISO ≠ 0

/-! ## The calls to the card -/

inductive SpiCall where
  | got (byte : BitVec 8)
  | wrote (byte : BitVec 8)
  deriving DecidableEq

def SpiCall.reply? : SpiCall → Option (BitVec 8)
  | .got byte => some byte
  | .wrote _ => none

/-- The device, with a record of its calls. -/
def SpiDevice.recorded (dev : SpiDevice σ) : SpiDevice (σ × List SpiCall) where
  spiGet s := ((dev.spiGet s.1).1, (dev.spiGet s.1).2, s.2 ++ [.got (dev.spiGet s.1).1])
  spiWrite byte s := (dev.spiWrite byte s.1, s.2 ++ [.wrote byte])
  detect s := dev.detect s.1

def BitbangSpi.calls (cxt : BitbangSpi (σ × List SpiCall)) : List SpiCall := cxt.card.2

/-- What the last `sdcard_spi_get` returned. -/
def lastReply (calls : List SpiCall) : Option (BitVec 8) := (calls.filterMap SpiCall.reply?).getLast?

@[simp] theorem lastReply_got (calls : List SpiCall) (byte : BitVec 8) :
    lastReply (calls ++ [.got byte]) = some byte := by
  simp [lastReply, SpiCall.reply?]

@[simp] theorem lastReply_wrote (calls : List SpiCall) (byte : BitVec 8) :
    lastReply (calls ++ [.wrote byte]) = lastReply calls := by
  simp [lastReply, SpiCall.reply?]

def BitbangSpi.unrecorded (cxt : BitbangSpi (σ × List SpiCall)) : BitbangSpi σ :=
  { cxt with card := cxt.card.1 }

section Equations
variable {dev : SpiDevice σ} {cxt : BitbangSpi σ}

theorem bitbangLatch_deselected (hsel : cxt.sdcardSel = false) : bitbangLatch dev cxt = cxt := by
  rw [bitbangLatch, hsel]
  rfl

theorem bitbangLatch_first (hsel : cxt.sdcardSel = true) (hcnt : cxt.spiCnt = 0) :
    bitbangLatch dev cxt =
      { cxt with sdcardIn := (dev.spiGet cxt.card).1, card := (dev.spiGet cxt.card).2 } := by
  rw [bitbangLatch, if_pos hsel, if_pos hcnt]

theorem bitbangLatch_later (hsel : cxt.sdcardSel = true) (hcnt : cxt.spiCnt ≠ 0) :
    bitbangLatch dev cxt = { cxt with sdcardIn := cxt.sdcardIn <<< 1 } := by
  rw [bitbangLatch, if_pos hsel, if_neg hcnt]

/-- The level of MOSI, shifted in. -/
def BitbangSpi.shifted (cxt : BitbangSpi σ) (data : BitVec 8) : BitVec 8 :=
  cxt.spiOut <<< 1 ||| if data &&& SPI_MOSI ≠ 0 then 1 else 0

/-- The latch leaves the counter and the shift register alone. -/
theorem bitbangLatch_kept (dev : SpiDevice σ) (cxt : BitbangSpi σ) : (bitbangLatch dev cxt).spiCnt = cxt.spiCnt ∧
    (bitbangLatch dev cxt).spiOut = cxt.spiOut ∧
    (bitbangLatch dev cxt).sdcardSel = cxt.sdcardSel := by
  cases hsel : cxt.sdcardSel with
  | false =>
    rw [bitbangLatch_deselected hsel]
    exact ⟨rfl, rfl, hsel⟩
  | true =>
    by_cases hcnt : cxt.spiCnt = 0
    · rw [bitbangLatch_first hsel hcnt]
      exact ⟨rfl, rfl, hsel⟩
    · rw [bitbangLatch_later hsel hcnt]
      exact ⟨rfl, rfl, hsel⟩

variable {data : BitVec 8}

theorem bitbangClock_between (hcnt : cxt.spiCnt ≠ 7) : bitbangClock dev cxt data =
    { bitbangLatch dev cxt with spiOut := cxt.shifted data, spiCnt := cxt.spiCnt + 1 } := by
  obtain ⟨hkcnt, hkout, -⟩ := bitbangLatch_kept dev cxt
  have hnext : cxt.spiCnt + 1 ≠ 8 := fun h => hcnt (by bv_omega)
  rw [bitbangClock]
  simp only [hkcnt, hkout, if_neg hnext]
  rfl

theorem bitbangClock_last (hcnt : cxt.spiCnt = 7) : bitbangClock dev cxt data =
    { bitbangLatch dev cxt with
      spiOut := 0
      spiCnt := 0
      card := if cxt.sdcardSel then dev.spiWrite (cxt.shifted data) (bitbangLatch dev cxt).card
        else (bitbangLatch dev cxt).card } := by
  obtain ⟨hkcnt, hkout, hksel⟩ := bitbangLatch_kept dev cxt
  have hnext : cxt.spiCnt + 1 = 8 := by rw [hcnt]; rfl
  rw [bitbangClock]
  simp only [hkcnt, hkout, hksel, if_pos hnext]
  split <;> rfl

end Equations

section Recorded
variable (dev : SpiDevice σ) (cxt : BitbangSpi (σ × List SpiCall)) (data : BitVec 8)

theorem bitbangLatch_recorded :
    (bitbangLatch dev.recorded cxt).unrecorded = bitbangLatch dev cxt.unrecorded := by
  cases hsel : cxt.sdcardSel with
  | false =>
    have hplain : cxt.unrecorded.sdcardSel = false := hsel
    rw [bitbangLatch_deselected hsel, bitbangLatch_deselected hplain]
  | true =>
    have hplain : cxt.unrecorded.sdcardSel = true := hsel
    by_cases hcnt : cxt.spiCnt = 0
    · have hfirst : cxt.unrecorded.spiCnt = 0 := hcnt
      rw [bitbangLatch_first hsel hcnt, bitbangLatch_first hplain hfirst]
      rfl
    · have hlater : cxt.unrecorded.spiCnt ≠ 0 := hcnt
      rw [bitbangLatch_later hsel hcnt, bitbangLatch_later hplain hlater]
      rfl

theorem bitbangClock_recorded : (bitbangClock dev.recorded cxt data).unrecorded =
    bitbangClock dev cxt.unrecorded data := by
  by_cases hcnt : cxt.spiCnt = 7
  · have hplain : cxt.unrecorded.spiCnt = 7 := hcnt
    rw [bitbangClock_last hcnt, bitbangClock_last hplain, ← bitbangLatch_recorded]
    cases hsel : cxt.sdcardSel <;> simp [BitbangSpi.unrecorded, hsel, BitbangSpi.shifted, SpiDevice.recorded]
  · have hplain : cxt.unrecorded.spiCnt ≠ 7 := hcnt
    rw [bitbangClock_between hcnt, bitbangClock_between hplain, ← bitbangLatch_recorded]
    rfl

theorem bitbangPortbWrite_recorded : (bitbangPortbWrite dev.recorded cxt data).unrecorded =
    bitbangPortbWrite dev cxt.unrecorded data := by
  have hclock := bitbangClock_recorded dev { cxt with sdcardSel := data &&& SPI_SS_SDCARD = 0 } data
  by_cases hrise : data &&& SPI_CLK ≠ 0 ∧ (!cxt.spiClkState) = true
  · have hplain : data &&& SPI_CLK ≠ 0 ∧ (!cxt.unrecorded.spiClkState) = true := hrise
    rw [bitbangPortbWrite, bitbangPortbWrite]
    simp only [if_pos hrise, if_pos hplain]
    exact congrArg (fun c => bitbangSpiUpdateOutputs dev
      { c with spiClkState := data &&& SPI_CLK = SPI_CLK }) hclock
  · have hplain : ¬(data &&& SPI_CLK ≠ 0 ∧ (!cxt.unrecorded.spiClkState) = true) := hrise
    rw [bitbangPortbWrite, bitbangPortbWrite]
    simp only [if_neg hrise, if_neg hplain]
    rfl

end Recorded

/-! ## The waveform -/

/-- What port B has shown: the level of the clock, whether the card is selected, the rising edges so
far, and the levels of MOSI at those since the card was last selected. -/
structure SpiLines where
  clk : Bool := false
  selected : Bool := false
  pulses : Nat := 0
  levels : List Bool := []
  deriving DecidableEq

/-- The levels that the next rising edge adds to. -/
def SpiLines.window (l : SpiLines) : List Bool := if l.selected then l.levels else []

/-- A rising edge of the clock. -/
def SpiLines.Rises (l : SpiLines) (data : BitVec 8) : Prop := data &&& SPI_CLK ≠ 0 ∧ l.clk = false

/-- A rising edge while the card is selected. -/
def SpiLines.Clocks (l : SpiLines) (data : BitVec 8) : Prop :=
  l.Rises data ∧ data &&& SPI_SS_SDCARD = 0

instance (l : SpiLines) (data : BitVec 8) : Decidable (l.Rises data) :=
  inferInstanceAs (Decidable (_ ∧ _))

instance (l : SpiLines) (data : BitVec 8) : Decidable (l.Clocks data) :=
  inferInstanceAs (Decidable (_ ∧ _))

def SpiLines.next (l : SpiLines) (data : BitVec 8) : SpiLines where
  clk := data &&& SPI_CLK ≠ 0
  selected := data &&& SPI_SS_SDCARD = 0
  pulses := if l.Rises data then l.pulses + 1 else l.pulses
  levels := if l.Clocks data then l.window ++ [decide (data &&& SPI_MOSI ≠ 0)] else l.window

/-- The calls at the last of the levels: a byte to send is fetched at the first of eight, and the
byte of the eight is delivered at the last. -/
def callsAt (levels : List Bool) (reply : BitVec 8) : List SpiCall :=
  (if levels.length % 8 = 1 then [.got reply] else []) ++
    if levels.length % 8 = 0 then [.wrote (word 8 (levels.drop (levels.length - 8)))] else []

/-- Each first clock of a selected card comes after a multiple of eight clocks. -/
def SpiLines.InPhase (l : SpiLines) (data : BitVec 8) : Prop :=
  l.Clocks data → l.window = [] → l.pulses % 8 = 0

/-- One value of the port, on the bus and on the waveform. -/
def spiStep (dev : SpiDevice σ) (s : SpiLines × BitbangSpi (σ × List SpiCall)) (data : BitVec 8) :
    SpiLines × BitbangSpi (σ × List SpiCall) :=
  (s.1.next data, bitbangPortbWrite dev.recorded s.2 data)

/-- The bus makes the calls that the waveform asks for and no others, and shows the bits of the last
byte that it fetched, the most significant first. -/
structure SpiFramed (dev : SpiDevice σ) (s : SpiLines × BitbangSpi (σ × List SpiCall))
    (data : BitVec 8) : Prop where
  quiet : ¬s.1.Clocks data → (spiStep dev s data).2.calls = s.2.calls
  clocked : s.1.Clocks data → ∃ reply,
    lastReply (spiStep dev s data).2.calls = some reply ∧
    (spiStep dev s data).2.calls = s.2.calls ++ callsAt (s.1.next data).levels reply ∧
    (spiStep dev s data).2.miso = reply.getLsbD (7 - ((s.1.next data).levels.length - 1) % 8)

/-! ## One value of the port -/

theorem and_twoPow_ne_zero (x : BitVec 8) {i : Nat} (hi : i < 8) :
    x &&& BitVec.twoPow 8 i ≠ 0 ↔ x.getLsbD i = true := by
  rw [BitVec.and_twoPow]
  cases x.getLsbD i with
  | false => simp
  | true =>
    have hbit : (BitVec.twoPow 8 i).getLsbD i = true := by simp [hi]
    refine iff_of_true (fun h => ?_) rfl
    rw [if_pos rfl] at h
    simp [h] at hbit

theorem clk_eq_iff (data : BitVec 8) : data &&& SPI_CLK = SPI_CLK ↔ data &&& SPI_CLK ≠ 0 := by
  have hclk : SPI_CLK = BitVec.twoPow 8 0 := rfl
  rw [hclk, BitVec.and_twoPow]
  cases data.getLsbD 0 <;> decide

section Outputs
variable (dev : SpiDevice σ) (cxt : BitbangSpi σ)

/-- While the card is selected MISO shows the top bit of its byte. -/
theorem update_miso : (bitbangSpiUpdateOutputs dev cxt).miso =
    if cxt.sdcardSel then cxt.sdcardIn.getLsbD 7 else true := by
  have hmask : SPI_MISO ||| SPI_DETECT ≠ 0 := by decide
  have hlevel : ∀ d old : BitVec 8,
      decide (mergeBits d old (SPI_MISO ||| SPI_DETECT) &&& SPI_MISO ≠ 0) = d.getLsbD 2 := by
    intro d old
    have hmiso : SPI_MISO = BitVec.twoPow 8 2 := rfl
    rw [hmiso, Bool.decide_congr (and_twoPow_ne_zero _ (by omega)), Bool.decide_eq_true]
    simp [mergeBits, SPI_DETECT]
  have hpin : ∀ data, (viaWriteDataPort cxt.via false (SPI_MISO ||| SPI_DETECT) data).portb.pinIn =
      mergeBits data cxt.via.portb.pinIn (SPI_MISO ||| SPI_DETECT) := by
    intro data
    rw [viaWriteDataPort, if_neg hmask]
    cases cxt.via.pbLatch <;> simp [Via.setPort, Via.port]
  have htop : cxt.sdcardIn &&& 0x80 ≠ 0 ↔ cxt.sdcardIn.getLsbD 7 = true :=
    and_twoPow_ne_zero cxt.sdcardIn (i := 7) (by omega)
  rw [BitbangSpi.miso, bitbangSpiUpdateOutputs]
  simp only [hpin, hlevel]
  cases cxt.sdcardSel with
  | false => cases dev.detect cxt.card <;> simp [SPI_MISO, SPI_DETECT]
  | true =>
    simp only [if_true]
    cases hbit : cxt.sdcardIn.getLsbD 7 with
    | false =>
      rw [hbit] at htop
      rw [if_neg (mt htop.mp Bool.false_ne_true)]
      cases dev.detect cxt.card <;> simp [SPI_DETECT]
    | true =>
      rw [if_pos (htop.mpr hbit)]
      cases dev.detect cxt.card <;> simp [SPI_MISO, SPI_DETECT]

end Outputs

theorem portbWrite_rise (dev : SpiDevice σ) {cxt : BitbangSpi σ} {data : BitVec 8}
    (hdata : data &&& SPI_CLK ≠ 0) (hclk : cxt.spiClkState = false) :
    bitbangPortbWrite dev cxt data = bitbangSpiUpdateOutputs dev
      { bitbangClock dev { cxt with sdcardSel := data &&& SPI_SS_SDCARD = 0 } data with
        spiClkState := data &&& SPI_CLK ≠ 0 } := by
  have hrise : data &&& SPI_CLK ≠ 0 ∧ (!cxt.spiClkState) = true := ⟨hdata, by rw [hclk]; rfl⟩
  rw [bitbangPortbWrite]
  simp only [if_pos hrise, clk_eq_iff]

theorem portbWrite_flat (dev : SpiDevice σ) {cxt : BitbangSpi σ} {data : BitVec 8}
    (h : ¬(data &&& SPI_CLK ≠ 0 ∧ cxt.spiClkState = false)) :
    bitbangPortbWrite dev cxt data = bitbangSpiUpdateOutputs dev
      { cxt with
        sdcardSel := data &&& SPI_SS_SDCARD = 0
        spiClkState := data &&& SPI_CLK ≠ 0 } := by
  have hflat : ¬(data &&& SPI_CLK ≠ 0 ∧ (!cxt.spiClkState) = true) := by
    rw [Bool.not_eq_true']
    exact h
  rw [bitbangPortbWrite]
  simp only [if_neg hflat, clk_eq_iff]

/-- The counter counts all clocks, modulo eight; the shift registers are in step with the levels of
the selected card. -/
structure SpiInSync (s : SpiLines × BitbangSpi (σ × List SpiCall)) : Prop where
  clk : s.2.spiClkState = s.1.clk
  cnt : s.2.spiCnt.toNat = s.1.pulses % 8
  empty : s.1.pulses % 8 = 0 → s.2.spiOut = 0
  phase : s.1.window ≠ [] → s.1.window.length % 8 = s.1.pulses % 8
  shifted : s.1.window ≠ [] → s.2.spiOut = word 8 (rest 8 s.1.window)
  sending : s.1.window ≠ [] → ∃ reply, lastReply s.2.calls = some reply ∧
    s.2.sdcardIn = reply <<< ((s.1.window.length - 1) % 8)

theorem bitbangSpiInit_inSync (dev : SpiDevice σ) (via : Via) (card : σ) :
    SpiInSync ({}, bitbangSpiInit dev.recorded via (card, [])) where
  clk := rfl
  cnt := rfl
  empty _ := rfl
  phase h := absurd rfl h
  shifted h := absurd rfl h
  sending h := absurd rfl h

section Step
variable {dev : SpiDevice σ} {cxt : BitbangSpi σ} {s : SpiLines × BitbangSpi (σ × List SpiCall)} {data : BitVec 8}

theorem next_window : (s.1.next data).window =
    if data &&& SPI_SS_SDCARD = 0 then (s.1.next data).levels else [] := by
  simp only [SpiLines.window, SpiLines.next, decide_eq_true_eq]

theorem next_clocked (hc : s.1.Clocks data) :
    (s.1.next data).levels = s.1.window ++ [decide (data &&& SPI_MOSI ≠ 0)] := if_pos hc

theorem next_unclocked (hc : ¬s.1.Clocks data) : (s.1.next data).levels = s.1.window := if_neg hc

/-- The counter after an edge. -/
theorem bitbangClock_counter (dev : SpiDevice σ) (cxt : BitbangSpi σ) (data : BitVec 8) {p : Nat} (h : cxt.spiCnt.toNat = p % 8) :
    (bitbangClock dev cxt data).spiCnt.toNat = (p + 1) % 8 ∧
    ((p + 1) % 8 = 0 → (bitbangClock dev cxt data).spiOut = 0) := by
  by_cases hcnt : cxt.spiCnt = 7
  · rw [bitbangClock_last hcnt]
    have hseven : p % 8 = 7 := by rw [← h, hcnt]; rfl
    have hwrap : (p + 1) % 8 = 0 := by omega
    exact ⟨hwrap.symm, fun _ => rfl⟩
  · rw [bitbangClock_between hcnt]
    have hne : p % 8 ≠ 7 := fun h7 => hcnt (BitVec.eq_of_toNat_eq (h.trans h7))
    have hnext : (cxt.spiCnt + 1).toNat = p % 8 + 1 := by
      have hone : (1 : BitVec 8).toNat = 1 := rfl
      rw [BitVec.toNat_add, h, hone]
      exact Nat.mod_eq_of_lt (by omega)
    refine ⟨hnext.trans (by omega), fun hzero => ?_⟩
    omega

theorem bitbangClock_sel : (bitbangClock dev cxt data).sdcardSel = cxt.sdcardSel := by
  obtain ⟨-, -, hsel⟩ := bitbangLatch_kept dev cxt
  by_cases hcnt : cxt.spiCnt = 7
  · rw [bitbangClock_last hcnt]
    exact hsel
  · rw [bitbangClock_between hcnt]
    exact hsel

theorem bitbangClock_deselected (hsel : cxt.sdcardSel = false) :
    (bitbangClock dev cxt data).card = cxt.card := by
  have hlatch : (bitbangLatch dev cxt).card = cxt.card := by rw [bitbangLatch_deselected hsel]
  by_cases hcnt : cxt.spiCnt = 7
  · rw [bitbangClock_last hcnt, hsel]
    exact hlatch
  · rw [bitbangClock_between hcnt]
    exact hlatch

/-- Between the edges only the select line moves. -/
theorem SpiInSync.flat (h : SpiInSync s) (hflat : ¬s.1.Rises data) :
    (spiStep dev s data).2.calls = s.2.calls ∧ SpiInSync (spiStep dev s data) := by
  have hnot : ¬(data &&& SPI_CLK ≠ 0 ∧ s.2.spiClkState = false) := by
    rw [h.clk]
    exact hflat
  have hpulses : (s.1.next data).pulses = s.1.pulses := if_neg hflat
  have hlevels : (s.1.next data).levels = s.1.window := next_unclocked fun hc => hflat hc.1
  have hwindow : (s.1.next data).window ≠ [] → (s.1.next data).window = s.1.window := by
    rw [next_window, hlevels]
    intro hne
    split at hne
    · rename_i hsel
      rw [if_pos hsel]
    · exact absurd rfl hne
  rw [spiStep, portbWrite_flat dev.recorded hnot]
  refine ⟨rfl, rfl, ?_, ?_, ?_, ?_, ?_⟩ <;> dsimp only
  · rw [hpulses]
    exact h.cnt
  · rw [hpulses]
    exact h.empty
  · intro hne
    rw [hpulses, hwindow hne]
    exact h.phase (hwindow hne ▸ hne)
  · intro hne
    rw [hwindow hne]
    exact h.shifted (hwindow hne ▸ hne)
  · intro hne
    rw [hwindow hne]
    exact h.sending (hwindow hne ▸ hne)

/-- A clock of another device is counted, and leaves the card alone. -/
theorem SpiInSync.deselected (h : SpiInSync s) (hrise : s.1.Rises data)
    (hsel : ¬data &&& SPI_SS_SDCARD = 0) :
    (spiStep dev s data).2.calls = s.2.calls ∧ SpiInSync (spiStep dev s data) := by
  have hpulses : (s.1.next data).pulses = s.1.pulses + 1 := if_pos hrise
  have hwindow : (s.1.next data).window = [] := by rw [next_window, if_neg hsel]
  have hclk : s.2.spiClkState = false := h.clk.trans hrise.2
  rw [spiStep, portbWrite_rise dev.recorded hrise.1 hclk]
  obtain ⟨hcnt, hempty⟩ := bitbangClock_counter dev.recorded
    { s.2 with sdcardSel := data &&& SPI_SS_SDCARD = 0 } data h.cnt
  refine ⟨?_, rfl, ?_, ?_, ?_, ?_, ?_⟩ <;> dsimp only
  · exact congrArg Prod.snd (bitbangClock_deselected (decide_eq_false hsel))
  · rw [hpulses]
    exact hcnt
  · rw [hpulses]
    exact hempty
  · exact fun hne => absurd hwindow hne
  · exact fun hne => absurd hwindow hne
  · exact fun hne => absurd hwindow hne

/-- The bus before an edge that is in phase, with the card selected by the same write or before. -/
structure Aligned (levels : List Bool) (cxt : BitbangSpi (σ × List SpiCall)) : Prop where
  sel : cxt.sdcardSel = true
  cnt : cxt.spiCnt.toNat = levels.length % 8
  shifted : cxt.spiOut = word 8 (rest 8 levels)
  sending : levels ≠ [] → ∃ reply, lastReply cxt.calls = some reply ∧
    cxt.sdcardIn = reply <<< ((levels.length - 1) % 8)

/-- The edge exchanges one bit. -/
structure Exchanged (levels : List Bool) (level : Bool) (reply : BitVec 8)
    (cxt cxt' : BitbangSpi (σ × List SpiCall)) : Prop where
  calls : cxt'.calls = cxt.calls ++ callsAt (levels ++ [level]) reply
  replied : lastReply cxt'.calls = some reply
  shifted : cxt'.spiOut = word 8 (rest 8 (levels ++ [level]))
  sending : cxt'.sdcardIn = reply <<< (levels.length % 8)

section Edge
variable {levels : List Bool} {c : BitbangSpi (σ × List SpiCall)}

theorem Aligned.shifts (h : Aligned levels c) : c.shifted data =
    word 8 (rest 8 levels ++ [decide (data &&& SPI_MOSI ≠ 0)]) := by
  rw [word_concat, ← h.shifted]
  simp only [BitbangSpi.shifted, decide_eq_true_eq]

theorem Aligned.first (h : Aligned levels c) (hcnt : c.spiCnt = 0) :
    Exchanged levels (decide (data &&& SPI_MOSI ≠ 0)) (dev.spiGet c.card.1).1 c
      (bitbangClock dev.recorded c data) := by
  have hzero : levels.length % 8 = 0 := by rw [← h.cnt, hcnt]; rfl
  have hne : c.spiCnt ≠ 7 := by rw [hcnt]; decide
  have hmod : (levels.length + 1) % 8 ≠ 0 := by omega
  have hone : (levels.length + 1) % 8 = 1 := by omega
  rw [bitbangClock_between hne, bitbangLatch_first h.sel hcnt]
  refine ⟨?_, lastReply_got _ _, ?_, ?_⟩
  · rw [callsAt, List.length_append, List.length_singleton, if_pos hone, if_neg hmod,
      List.append_nil]
    rfl
  · rw [rest_concat _ hmod]
    exact h.shifts
  · rw [hzero, BitVec.shiftLeft_zero]
    rfl

/-- After the first edge the byte to send is shifted. -/
theorem Aligned.shiftedReply (h : Aligned levels c) (hcnt : c.spiCnt ≠ 0) : ∃ reply,
    lastReply c.calls = some reply ∧ c.sdcardIn <<< 1 = reply <<< (levels.length % 8) := by
  have hpos : levels.length % 8 ≠ 0 := by
    rw [← h.cnt]
    exact fun hzero => hcnt (BitVec.eq_of_toNat_eq hzero)
  have hne : levels ≠ [] := by
    rintro rfl
    exact hpos rfl
  obtain ⟨reply, hreply, hin⟩ := h.sending hne
  refine ⟨reply, hreply, ?_⟩
  have hindex : levels.length % 8 = (levels.length - 1) % 8 + 1 := by omega
  rw [hin, hindex, BitVec.shiftLeft_add]

theorem Aligned.between (h : Aligned levels c) (hcnt : c.spiCnt ≠ 0) (hlast : c.spiCnt ≠ 7) :
    ∃ reply, Exchanged levels (decide (data &&& SPI_MOSI ≠ 0)) reply c
      (bitbangClock dev.recorded c data) := by
  have hpos : levels.length % 8 ≠ 0 := by
    rw [← h.cnt]
    exact fun hzero => hcnt (BitVec.eq_of_toNat_eq hzero)
  have hseven : levels.length % 8 ≠ 7 := by
    rw [← h.cnt]
    exact fun h7 => hlast (BitVec.eq_of_toNat_eq h7)
  have hmod : (levels.length + 1) % 8 ≠ 0 := by omega
  have hone : (levels.length + 1) % 8 ≠ 1 := by omega
  obtain ⟨reply, hreply, hin⟩ := h.shiftedReply hcnt
  rw [bitbangClock_between hlast, bitbangLatch_later h.sel hcnt]
  refine ⟨reply, ?_, hreply, ?_, hin⟩
  · rw [callsAt, List.length_append, List.length_singleton, if_neg hone, if_neg hmod,
      List.append_nil, List.append_nil]
    rfl
  · rw [rest_concat _ hmod]
    exact h.shifts

theorem Aligned.last (h : Aligned levels c) (hlast : c.spiCnt = 7) :
    ∃ reply, Exchanged levels (decide (data &&& SPI_MOSI ≠ 0)) reply c
      (bitbangClock dev.recorded c data) := by
  have hseven : levels.length % 8 = 7 := by rw [← h.cnt, hlast]; rfl
  have hcnt : c.spiCnt ≠ 0 := by rw [hlast]; decide
  have hmod : (levels.length + 1) % 8 = 0 := by omega
  have hone : (levels.length + 1) % 8 ≠ 1 := by omega
  obtain ⟨reply, hreply, hin⟩ := h.shiftedReply hcnt
  rw [bitbangClock_last hlast, bitbangLatch_later h.sel hcnt, if_pos h.sel]
  refine ⟨reply, ?_, ?_, ?_, hin⟩
  · rw [callsAt, List.length_append, List.length_singleton, if_neg hone, if_pos hmod,
      List.nil_append, drop_concat_last _ (by decide) hmod, ← h.shifts]
    rfl
  · exact (lastReply_wrote _ _).trans hreply
  · rw [rest_concat_last _ hmod, word_nil]

theorem Aligned.exchanges (h : Aligned levels c) (dev : SpiDevice σ) (data : BitVec 8) : ∃ reply,
    Exchanged levels (decide (data &&& SPI_MOSI ≠ 0)) reply c (bitbangClock dev.recorded c data) := by
  by_cases hcnt : c.spiCnt = 0
  · exact ⟨_, h.first hcnt⟩
  · by_cases hlast : c.spiCnt = 7
    · exact h.last hlast
    · exact h.between hcnt hlast

end Edge

/-- At a clock in phase, the bits of the byte so far are those of the window. -/
theorem SpiInSync.aligned (h : SpiInSync s) (hc : s.1.Clocks data) (hphase : s.1.InPhase data) :
    s.1.window.length % 8 = s.1.pulses % 8 ∧
      Aligned s.1.window { s.2 with sdcardSel := data &&& SPI_SS_SDCARD = 0 } := by
  have hmod : s.1.window.length % 8 = s.1.pulses % 8 := by
    by_cases hempty : s.1.window = []
    · rw [hphase hc hempty, hempty]
      rfl
    · exact h.phase hempty
  refine ⟨hmod, decide_eq_true hc.2, h.cnt.trans hmod.symm, ?_, h.sending⟩
  by_cases hempty : s.1.window = []
  · rw [hempty, rest_nil, word_nil]
    exact h.empty (hphase hc hempty)
  · exact h.shifted hempty

/-- A clock of the selected card, in phase. -/
theorem SpiInSync.clocked (h : SpiInSync s) (hc : s.1.Clocks data) (hphase : s.1.InPhase data) :
    SpiFramed dev s data ∧ SpiInSync (spiStep dev s data) := by
  obtain ⟨hmod, haligned⟩ := h.aligned hc hphase
  obtain ⟨hrise, hsel⟩ := hc
  obtain ⟨reply, hcalls, hreply, hshifted, hsending⟩ := haligned.exchanges dev data
  have hlevels : (s.1.next data).levels = _ := next_clocked ⟨hrise, hsel⟩
  have hwindow : (s.1.next data).window = _ := (next_window.trans (if_pos hsel)).trans hlevels
  have hpulses : (s.1.next data).pulses = s.1.pulses + 1 := if_pos hrise
  have hclk : s.2.spiClkState = false := h.clk.trans hrise.2
  obtain ⟨hcnt, hempty⟩ := bitbangClock_counter dev.recorded
    { s.2 with sdcardSel := data &&& SPI_SS_SDCARD = 0 } data h.cnt
  have hsteps : (spiStep dev s data).2 = _ := portbWrite_rise dev.recorded hrise.1 hclk
  have hlast : (s.1.next data).levels.length - 1 = s.1.window.length := by
    rw [hlevels, List.length_append]
    exact Nat.add_sub_cancel _ 1
  have hmiso : (spiStep dev s data).2.miso =
      reply.getLsbD (7 - ((s.1.next data).levels.length - 1) % 8) := by
    rw [hsteps, update_miso, bitbangClock_sel, if_pos (decide_eq_true hsel), hsending, hlast]
    exact msb_shiftLeft reply (by omega)
  refine ⟨⟨fun hquiet => absurd ⟨hrise, hsel⟩ hquiet, fun _ => ⟨reply, ?_, ?_, hmiso⟩⟩, ?_⟩
  · rw [hsteps]
    exact hreply
  · rw [hsteps, hlevels]
    exact hcalls
  · refine ⟨?_, ?_, ?_, fun _ => ?_, fun _ => ?_, fun _ => ⟨reply, ?_, ?_⟩⟩
    · rw [hsteps]
      rfl
    · rw [hsteps]
      exact hcnt.trans (congrArg (· % 8) hpulses.symm)
    · rw [hsteps]
      exact fun hzero => hempty ((congrArg (· % 8) hpulses.symm).trans hzero)
    · have hnext : (spiStep dev s data).1 = s.1.next data := rfl
      rw [hnext, hwindow, hpulses, List.length_append, List.length_singleton, Nat.add_mod, hmod,
        ← Nat.add_mod]
    · rw [hsteps]
      exact hshifted.trans (congrArg (fun levels => word 8 (rest 8 levels)) hwindow.symm)
    · rw [hsteps]
      exact hreply
    · have hnext : (spiStep dev s data).1.window.length - 1 = s.1.window.length :=
        (congrArg (fun levels => levels.length - 1) (hwindow.trans hlevels.symm)).trans hlast
      rw [hsteps, hnext]
      exact hsending

/-- Out of phase, no byte is fetched. -/
theorem bitbangClock_no_get {c : BitbangSpi (σ × List SpiCall)} (hsel : c.sdcardSel = true)
    (hcnt : c.spiCnt ≠ 0) (reply : BitVec 8) :
    (bitbangClock dev.recorded c data).calls ≠ c.calls ++ [.got reply] := by
  intro hcalls
  by_cases hlast : c.spiCnt = 7
  · rw [bitbangClock_last hlast, bitbangLatch_later hsel hcnt, if_pos hsel] at hcalls
    have hwrote := List.append_cancel_left hcalls
    exact nomatch hwrote
  · rw [bitbangClock_between hlast, bitbangLatch_later hsel hcnt] at hcalls
    have hnil := List.append_cancel_left ((List.append_nil _).trans hcalls)
    exact nomatch hnil

theorem SpiInSync.phase_needed (h : SpiInSync s) (hframed : SpiFramed dev s data) :
    s.1.InPhase data := by
  rintro ⟨hrise, hsel⟩ hempty
  by_contra hphase
  have hcnt : s.2.spiCnt ≠ 0 := by
    intro hzero
    rw [← h.cnt, hzero] at hphase
    exact hphase rfl
  have hclk : s.2.spiClkState = false := h.clk.trans hrise.2
  have hlevels : (s.1.next data).levels = _ := next_clocked ⟨hrise, hsel⟩
  obtain ⟨reply, -, hcalls, -⟩ := hframed.clocked ⟨hrise, hsel⟩
  rw [hlevels, hempty, spiStep, portbWrite_rise dev.recorded hrise.1 hclk] at hcalls
  exact bitbangClock_no_get (c := { s.2 with sdcardSel := data &&& SPI_SS_SDCARD = 0 })
    (decide_eq_true hsel) hcnt reply hcalls

/-- One value of the port. -/
theorem SpiInSync.step_iff (h : SpiInSync s) : SpiFramed dev s data ↔ s.1.InPhase data := by
  refine ⟨h.phase_needed, fun hphase => ?_⟩
  by_cases hc : s.1.Clocks data
  · exact (h.clocked hc hphase).1
  · refine ⟨fun _ => ?_, fun hc' => absurd hc' hc⟩
    by_cases hrise : s.1.Rises data
    · exact (h.deselected hrise fun hsel => hc ⟨hrise, hsel⟩).1
    · exact (h.flat hrise).1

theorem SpiInSync.step (h : SpiInSync s) (hphase : s.1.InPhase data) :
    SpiInSync (spiStep dev s data) := by
  by_cases hc : s.1.Clocks data
  · exact (h.clocked hc hphase).2
  · by_cases hrise : s.1.Rises data
    · exact (h.deselected hrise fun hsel => hc ⟨hrise, hsel⟩).2
    · exact (h.flat hrise).2

end Step

/-! ## Every waveform -/

/-- The values are framed exactly if the phase is kept, which the lines alone decide. -/
theorem framed_iff (dev : SpiDevice σ) {s : SpiLines × BitbangSpi (σ × List SpiCall)}
    (h : SpiInSync s) (values : List (BitVec 8)) :
    Steps.Each (spiStep dev) (SpiFramed dev) s values ↔
      Steps.Each SpiLines.next SpiLines.InPhase s.1 values :=
  calc Steps.Each (spiStep dev) (SpiFramed dev) s values
    _ ↔ Steps.Each (spiStep dev) (fun s data => s.1.InPhase data) s values :=
        Steps.each_iff (fun _ _ hs => hs.step_iff) (fun _ _ hs hf => hs.step (hs.step_iff.mp hf)) h values
    _ ↔ Steps.Each SpiLines.next SpiLines.InPhase s.1 values :=
        Steps.each_map SpiLines.InPhase Prod.fst (fun _ _ => rfl) s values

/-- From `bitbang_spi_init`, and every image file and state of the SD card. -/
theorem spi_bytes_framed_iff (file : SdImage φ) (card : Sdcard φ) (via : Via)
    (values : List (BitVec 8)) :
    Steps.Each (spiStep (sdcard file)) (SpiFramed (sdcard file))
      ({}, bitbangSpiInit (sdcard file).recorded via (card, [])) values ↔
    Steps.Each SpiLines.next SpiLines.InPhase {} values :=
  framed_iff (sdcard file) (bitbangSpiInit_inSync (sdcard file) via card) values

/-- An image file whose block cannot be read. -/
def unreadable : SdImage Unit where
  lseek _ image := (true, image)
  read image := (none, image)

/-- One clock while the card is not selected, then the eight of a byte 0x40 for the card. -/
def oneClockBefore : List (BitVec 8) :=
  [0x13, 0x12, 0x00, 0x01, 0x02, 0x03, 0x00, 0x01, 0x00, 0x01, 0x00, 0x01, 0x00, 0x01, 0x00, 0x01,
    0x00, 0x01]

/-- The clock becomes the top bit of the byte that the card receives, before a byte is fetched. -/
theorem stray_clock_in_byte :
    ¬Steps.Each (spiStep (sdcard unreadable)) (SpiFramed (sdcard unreadable))
      ({}, bitbangSpiInit (sdcard unreadable).recorded viaInit (sdcardInit (), [])) oneClockBefore ∧
    (oneClockBefore.foldl (bitbangPortbWrite (sdcard unreadable).recorded)
      (bitbangSpiInit (sdcard unreadable).recorded viaInit (sdcardInit (), []))).calls =
      [.wrote 0xA0, .got 0xFF] := by
  refine ⟨fun h => ?_, by decide +kernel⟩
  have hphases := (framed_iff (sdcard unreadable)
    (bitbangSpiInit_inSync (sdcard unreadable) viaInit (sdcardInit ())) oneClockBefore).mp h
  have hone : 1 % 8 = 0 := hphases.2.2.2.1 (by decide) (by decide)
  exact absurd hone (by decide)

end Cb6502
