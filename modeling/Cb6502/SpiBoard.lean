import Cb6502.BitbangSpi
import Cb6502.Latching
import Cb6502.SdRead
import Cb6502.Lib.Duplex

/- The SD card as the program sees it, behind the VIA and the bit-banged SPI bus
   (plat/cb6502/bitbang_spi.c). A session is any list of operations on the VIA. Each call of
   `bitbang_spi_via_cb` that its writes and its timer cause is served, and a rising edge of the clock
   is recorded with what port B shows and with the VIA that the program can then read.

   What is proved:
     1. `BitbangSpi.On.clocked`, `.flat` (one value of the port is one clock of a duplex link, or
        none); `via_session_exchanges`, for every device, every session.
     2. `sdExchange_eq` (the calls of the card that an exchange of bytes comes to). -/
namespace Cb6502

open Serial Duplex

variable {σ φ : Type}

/-! ## The callback -/

/-- `bitbang_spi_via_cb` -/
def bitbangSpiViaCb (dev : SpiDevice σ) (cxt : BitbangSpi σ) (event : ViaPortData) (portb : BitVec 8) :
    BitbangSpi σ :=
  if event = .portb then bitbangPortbWrite dev cxt portb else cxt

/-- A rising edge of the clock: the value of port B, and the VIA with the answer on its pins. -/
structure SpiEdge where
  data : BitVec 8
  via : Via

namespace SpiEdge
variable (e : SpiEdge)

def Selected : Prop := e.data &&& SPI_SS_SDCARD = 0
def mosi : Bool := e.data &&& SPI_MOSI ≠ 0

/-- MISO is an input, and port B not latched. -/
def Readable : Prop := e.via.portb.ddr &&& SPI_MISO = 0 ∧ e.via.pbLatch = false

/-- The level of MISO in what the program reads from port B. -/
def seen : Bool := (viaRead e.via (dataNum false)).1 &&& SPI_MISO ≠ 0

end SpiEdge

/-- The calls of the callback, and the rising edges among them. -/
def serve (dev : SpiDevice σ) (cxt : BitbangSpi σ) : List ViaNotice → List SpiEdge × BitbangSpi σ
  | [] => ([], cxt)
  | notice :: notices =>
    let next := bitbangSpiViaCb dev cxt notice.event notice.levels.portb
    let later := serve dev next notices
    (if notice.event = .portb ∧ notice.levels.portb &&& SPI_CLK ≠ 0 ∧ cxt.spiClkState = false then
      ⟨notice.levels.portb, next.via⟩ :: later.1 else later.1, later.2)

/-- An operation on the VIA with the bus's callback registered under the handle `cb`. The VIA makes
its calls at the end; what the timer does behind its call, to disarm itself, is not on the pins. -/
def BitbangSpi.viaOp (dev : SpiDevice σ) (cb : Nat) (cxt : BitbangSpi σ) (op : ViaOp) :
    List SpiEdge × BitbangSpi σ :=
  let via := (op.step cxt.via).via
  serve dev { cxt with via } ((via.notified.drop cxt.via.notified.length).filter (·.callback == cb))

/-- A session, and its rising edges. -/
def BitbangSpi.session (dev : SpiDevice σ) (cb : Nat) (cxt : BitbangSpi σ) :
    List ViaOp → List SpiEdge × BitbangSpi σ
  | [] => ([], cxt)
  | op :: ops =>
    let done := cxt.viaOp dev cb op
    let later := done.2.session dev cb ops
    (done.1 ++ later.1, later.2)

/-! ## Clocks -/

/-- The two ends of the bus. -/
def SpiDevice.duplex (dev : SpiDevice σ) : Duplex.Device σ 8 := ⟨dev.spiGet, dev.spiWrite⟩

/-- The bus is in the middle of the word of the link. -/
structure BitbangSpi.On (cxt : BitbangSpi σ) (l : Link σ 8) : Prop where
  card : cxt.card = l.state
  short : l.levels.length < 8
  cnt : cxt.spiCnt.toNat = l.levels.length
  out : cxt.spiOut = word 8 l.levels
  reply : l.levels ≠ [] → cxt.sdcardIn = l.reply <<< (l.levels.length - 1)

section Clocks
variable {dev : SpiDevice σ} {cxt : BitbangSpi σ} {l : Link σ 8} {data : BitVec 8}

theorem latch_levels : (dev.duplex.latch l).levels = l.levels := by
  unfold Device.latch
  split <;> rfl

theorem BitbangSpi.On.cnt_eq (h : cxt.On l) {n : BitVec 8} :
    cxt.spiCnt = n ↔ l.levels.length = n.toNat := by
  rw [← h.cnt, BitVec.toNat_inj]

/-- The card's byte is latched before the first clock and shifted before the others. -/
theorem BitbangSpi.On.latch (h : cxt.On l) (hsel : cxt.sdcardSel = true) :
    (bitbangLatch dev cxt).card = (dev.duplex.latch l).state ∧
      (bitbangLatch dev cxt).sdcardIn = (dev.duplex.latch l).reply <<< l.levels.length := by
  by_cases hfirst : l.levels = []
  · have hcnt : cxt.spiCnt = 0 := h.cnt_eq.mpr (by rw [hfirst]; rfl)
    rw [bitbangLatch_first hsel hcnt, Device.latch, if_pos hfirst, hfirst, h.card]
    exact ⟨rfl, (BitVec.shiftLeft_zero _).symm⟩
  · have hpos : 0 < l.levels.length := List.length_pos_of_ne_nil hfirst
    have hcnt : cxt.spiCnt ≠ 0 := fun hzero => by
      have hnone : l.levels.length = 0 := h.cnt_eq.mp hzero
      omega
    have hshift : l.levels.length = l.levels.length - 1 + 1 := by omega
    rw [bitbangLatch_later hsel hcnt, Device.latch, if_neg hfirst, h.reply hfirst]
    refine ⟨h.card, ?_⟩
    rw [hshift, BitVec.shiftLeft_add, Nat.add_sub_cancel]

theorem BitbangSpi.On.shifted (h : cxt.On l) :
    cxt.shifted data = word 8 (l.levels ++ [decide (data &&& SPI_MOSI ≠ 0)]) := by
  rw [word_concat, BitbangSpi.shifted, h.out]
  simp only [decide_eq_true_eq]

/-- A rising edge is a clock of the link, and shows its level. -/
theorem BitbangSpi.On.clock (h : cxt.On l) (hsel : cxt.sdcardSel = true) :
    (bitbangClock dev cxt data).On (dev.duplex.clock l (data &&& SPI_MOSI ≠ 0)).2 ∧
      (bitbangClock dev cxt data).sdcardIn.getLsbD 7 =
        (dev.duplex.clock l (data &&& SPI_MOSI ≠ 0)).1 := by
  obtain ⟨hcard, hreply⟩ : (bitbangLatch dev cxt).card = (dev.duplex.latch l).state ∧ _ := h.latch hsel
  have hshort := h.short
  have htop : ((dev.duplex.latch l).reply <<< l.levels.length).getLsbD 7 =
      (dev.duplex.latch l).reply.getLsbD (7 - l.levels.length) :=
    msb_shiftLeft _ (by omega)
  by_cases hlast : l.levels.length + 1 = 8
  · have hcnt : cxt.spiCnt = 7 := h.cnt_eq.mpr (Nat.succ.inj hlast)
    have hlatched : (dev.duplex.latch l).levels.length + 1 = 8 := by rw [latch_levels]; exact hlast
    have hseven : 7 - l.levels.length = 0 := by omega
    rw [clock_last hlatched, bitbangClock_last hcnt, if_pos hsel, h.shifted]
    refine ⟨⟨?_, Nat.zero_lt_succ 7, rfl, word_nil.symm, fun hne => absurd rfl hne⟩, ?_⟩
    · rw [latch_levels, hcard]
      rfl
    · rw [hreply, htop, hseven]
  · have hcnt : cxt.spiCnt ≠ 7 := fun hseven => by
      have hlen : l.levels.length = 7 := h.cnt_eq.mp hseven
      omega
    have hlatched : (dev.duplex.latch l).levels.length + 1 ≠ 8 := by rw [latch_levels]; exact hlast
    have hlength : ∀ level, (l.levels ++ [level]).length = l.levels.length + 1 := fun level => by simp
    rw [clock_inside hlatched, bitbangClock_between hcnt, latch_levels]
    refine ⟨⟨hcard, ?_, ?_, h.shifted, fun _ => ?_⟩, ?_⟩
    · rw [hlength]
      omega
    · have hsum : (cxt.spiCnt + 1).toNat = cxt.spiCnt.toNat + 1 := by
        have hbound := h.cnt
        rw [BitVec.toNat_add]
        exact Nat.mod_eq_of_lt (by simp; omega)
      rw [hlength, hsum, h.cnt]
    · rw [hlength, Nat.add_sub_cancel]
      exact hreply
    · have hindex : 7 - l.levels.length = 8 - (l.levels.length + 1) := by omega
      rw [hreply, htop, hindex]

/-- The pins of an input are not covered by the output register. -/
theorem mergeBits_input (or ir : BitVec 8) {ddr mask : BitVec 8} (h : ddr &&& mask = 0) :
    mergeBits or ir ddr &&& mask = ir &&& mask := by
  apply BitVec.eq_of_getLsbD_eq
  intro i hi
  have hbit : (ddr.getLsbD i && mask.getLsbD i) = false := by
    rw [← BitVec.getLsbD_and, h]
    exact BitVec.getLsbD_zero
  simp only [mergeBits, BitVec.getLsbD_and, BitVec.getLsbD_or, BitVec.getLsbD_not, hi, decide_true,
    Bool.true_and]
  revert hbit
  cases ddr.getLsbD i <;> cases mask.getLsbD i <;> simp

/-- With the latch off the program reads the level of the pin. -/
theorem update_seen (h : (SpiEdge.mk data (bitbangSpiUpdateOutputs dev cxt).via).Readable) :
    (SpiEdge.mk data (bitbangSpiUpdateOutputs dev cxt).via).seen =
      (bitbangSpiUpdateOutputs dev cxt).miso := by
  obtain ⟨hddr, hlatch⟩ := h
  have hmask : SPI_MISO ||| SPI_DETECT ≠ 0 := by decide
  have hir : (bitbangSpiUpdateOutputs dev cxt).via.portb.ir =
      (bitbangSpiUpdateOutputs dev cxt).via.portb.pinIn := by
    have hoff : cxt.via.pbLatch = false := by
      rw [← hlatch]
      simp only [bitbangSpiUpdateOutputs, viaWriteDataPort, if_neg hmask]
      rfl
    simp only [bitbangSpiUpdateOutputs, viaWriteDataPort, if_neg hmask, hoff]
    rfl
  rw [SpiEdge.seen, BitbangSpi.miso, viaRead_data]
  show decide (mergeBits (bitbangSpiUpdateOutputs dev cxt).via.portb.or
    (bitbangSpiUpdateOutputs dev cxt).via.portb.ir (bitbangSpiUpdateOutputs dev cxt).via.portb.ddr &&&
      SPI_MISO ≠ 0) = _
  rw [mergeBits_input _ _ hddr, hir]

/-- A value of the port that is a rising edge. -/
theorem BitbangSpi.On.clocked (h : cxt.On l) (hrise : data &&& SPI_CLK ≠ 0 ∧ cxt.spiClkState = false)
    (hsel : data &&& SPI_SS_SDCARD = 0) :
    (bitbangPortbWrite dev cxt data).On (dev.duplex.clock l (data &&& SPI_MOSI ≠ 0)).2 ∧
      (bitbangPortbWrite dev cxt data).miso = (dev.duplex.clock l (data &&& SPI_MOSI ≠ 0)).1 := by
  have hselected : BitbangSpi.On { cxt with sdcardSel := decide (data &&& SPI_SS_SDCARD = 0) } l :=
    ⟨h.card, h.short, h.cnt, h.out, h.reply⟩
  obtain ⟨hon, hbit⟩ : (bitbangClock dev _ data).On _ ∧ _ := hselected.clock (decide_eq_true hsel)
  rw [portbWrite_rise dev hrise.1 hrise.2]
  refine ⟨⟨hon.card, hon.short, hon.cnt, hon.out, hon.reply⟩, ?_⟩
  rw [update_miso, ← hbit, bitbangClock_sel]
  exact if_pos (decide_eq_true hsel)

/-- A value that is none. -/
theorem BitbangSpi.On.flat (h : cxt.On l) (hflat : ¬(data &&& SPI_CLK ≠ 0 ∧ cxt.spiClkState = false)) :
    (bitbangPortbWrite dev cxt data).On l := by
  rw [portbWrite_flat dev hflat]
  exact ⟨h.card, h.short, h.cnt, h.out, h.reply⟩

/-! ## Sessions -/

/-- The card is selected and MISO readable at each of the edges. -/
def EdgesUsable (edges : List SpiEdge) : Prop := ∀ e ∈ edges, e.Selected ∧ e.Readable

/-- From a link to another, with the levels of the edges sent and seen. -/
structure Carried (dev : SpiDevice σ) (l : Link σ 8) (r : List SpiEdge × BitbangSpi σ) : Prop where
  on : r.2.On (dev.duplex.run l (r.1.map SpiEdge.mosi)).2
  seen : r.1.map SpiEdge.seen = (dev.duplex.run l (r.1.map SpiEdge.mosi)).1

theorem serve_carried (notices : List ViaNotice) (h : cxt.On l)
    (husable : EdgesUsable (serve dev cxt notices).1) : Carried dev l (serve dev cxt notices) := by
  induction notices generalizing cxt l with
  | nil => exact ⟨h, rfl⟩
  | cons notice notices ih =>
    rw [serve] at husable ⊢
    by_cases hport : notice.event = .portb
    · by_cases hrise : notice.levels.portb &&& SPI_CLK ≠ 0 ∧ cxt.spiClkState = false
      · simp only [bitbangSpiViaCb, if_pos hport, if_pos (And.intro hport hrise)] at husable ⊢
        obtain ⟨hsel, hreadable⟩ := husable _ List.mem_cons_self
        obtain ⟨hon, hmiso⟩ : (bitbangPortbWrite dev cxt _).On _ ∧ _ := h.clocked hrise hsel
        obtain ⟨hlater, hseen⟩ := ih hon fun e he => husable e (List.mem_cons_of_mem _ he)
        refine ⟨hlater, ?_⟩
        have hfirst := (update_seen hreadable).trans hmiso
        rw [List.map_cons, List.map_cons, hseen]
        exact congrArg (· :: _) hfirst
      · simp only [bitbangSpiViaCb, if_pos hport, if_neg fun h => hrise (And.right h)] at husable ⊢
        exact ih (h.flat hrise) husable
    · simp only [bitbangSpiViaCb, if_neg hport, if_neg fun h => hport (And.left h)] at husable ⊢
      exact ih h husable

theorem viaOp_carried (cb : Nat) (op : ViaOp) (h : cxt.On l) (husable : EdgesUsable (cxt.viaOp dev cb op).1) :
    Carried dev l (cxt.viaOp dev cb op) := by
  have hvia : BitbangSpi.On { cxt with via := (op.step cxt.via).via } l :=
    ⟨h.card, h.short, h.cnt, h.out, h.reply⟩
  exact serve_carried _ hvia husable

theorem session_carried (cb : Nat) (ops : List ViaOp) (h : cxt.On l)
    (husable : EdgesUsable (cxt.session dev cb ops).1) : Carried dev l (cxt.session dev cb ops) := by
  induction ops generalizing cxt l with
  | nil => exact ⟨h, rfl⟩
  | cons op ops ih =>
    rw [BitbangSpi.session] at husable ⊢
    obtain ⟨hon, hseen⟩ := viaOp_carried cb op h fun e he => husable e (List.mem_append_left _ he)
    obtain ⟨hlater, hlaterSeen⟩ := ih hon fun e he => husable e (List.mem_append_right _ he)
    refine ⟨?_, ?_⟩
    · rw [List.map_append, run_append]
      exact hlater
    · rw [List.map_append, List.map_append, run_append, hlaterSeen, hseen]

end Clocks

/-- The bus is between two bytes. -/
structure BitbangSpi.AtByte (cxt : BitbangSpi σ) : Prop where
  cnt : cxt.spiCnt = 0
  out : cxt.spiOut = 0

theorem bitbangSpiInit_atByte (dev : SpiDevice σ) (via : Via) (card : σ) :
    (bitbangSpiInit dev via card).AtByte := ⟨rfl, rfl⟩

/-- A session that sends bytes: the levels that the program reads, and the link that it ends on. -/
theorem BitbangSpi.AtByte.session_words (dev : SpiDevice σ) (cb : Nat) {cxt : BitbangSpi σ}
    (h : cxt.AtByte) (ops : List ViaOp) (husable : EdgesUsable (cxt.session dev cb ops).1)
    (sent : List (BitVec 8))
    (hsent : (cxt.session dev cb ops).1.map SpiEdge.mosi = sent.flatMap bits) :
    (cxt.session dev cb ops).1.map SpiEdge.seen =
        (dev.duplex.exchange cxt.card sent).1.flatMap bits ∧
      ∃ l : Link σ 8, l.state = (dev.duplex.exchange cxt.card sent).2 ∧ l.levels = [] ∧
        (cxt.session dev cb ops).2.On l := by
  have hon : cxt.On ⟨cxt.card, [], 0⟩ :=
    ⟨rfl, Nat.zero_lt_succ 7, by rw [h.cnt]; rfl, h.out, fun hne => absurd rfl hne⟩
  obtain ⟨hend, hseen⟩ := session_carried cb ops hon husable
  obtain ⟨hreplies, hstate, hlevels⟩ :
      (dev.duplex.run ⟨cxt.card, [], 0⟩ (sent.flatMap bits)).1 = _ ∧ _ :=
    run_words (by decide) rfl sent
  rw [hsent] at hend hseen
  exact ⟨hseen.trans hreplies, _, hstate, hlevels, hend⟩

/-- Bytes go through port B unchanged, both ways. In every session of the VIA from a boundary of two
bytes, the card being selected and MISO readable at each rising edge of the clock: if the levels of
MOSI at the edges are those of some bytes, the levels that the program reads at the edges are those of
the bytes that the device gives for them, byte for byte, and the device is as after that exchange. -/
theorem via_session_exchanges (dev : SpiDevice σ) (cb : Nat) {cxt : BitbangSpi σ} (h : cxt.AtByte)
    (ops : List ViaOp) (husable : EdgesUsable (cxt.session dev cb ops).1) (sent : List (BitVec 8))
    (hsent : (cxt.session dev cb ops).1.map SpiEdge.mosi = sent.flatMap bits) :
    (cxt.session dev cb ops).1.map SpiEdge.seen = (dev.duplex.exchange cxt.card sent).1.flatMap bits ∧
      (cxt.session dev cb ops).2.card = (dev.duplex.exchange cxt.card sent).2 ∧
      (cxt.session dev cb ops).2.AtByte := by
  obtain ⟨hseen, l, hstate, hlevels, hend⟩ := h.session_words dev cb ops husable sent hsent
  refine ⟨hseen, hend.card.trans hstate, ?_, ?_⟩
  · have hcnt := hend.cnt
    rw [hlevels] at hcnt
    exact BitVec.eq_of_toNat_eq hcnt
  · rw [hend.out, hlevels, word_nil]

instance (e : SpiEdge) : Decidable e.Selected := inferInstanceAs (Decidable (_ = _))

instance (e : SpiEdge) : Decidable e.Readable := inferInstanceAs (Decidable (_ ∧ _))

instance (edges : List SpiEdge) : Decidable (EdgesUsable edges) :=
  inferInstanceAs (Decidable (∀ e ∈ edges, e.Selected ∧ e.Readable))

/-- A program that drives the bus: the lines are made outputs, and each level of MOSI is set with the
clock low and held with the clock high. -/
def driveBytes (sent : List (BitVec 8)) : List ViaOp :=
  .write 0x02 (SPI_CLK ||| SPI_MOSI ||| SPI_SS_SDCARD) ::
    (sent.flatMap bits).flatMap fun level =>
      let mosi := if level then SPI_MOSI else 0
      [.write 0x00 mosi, .write 0x00 (mosi ||| SPI_CLK)]

/-- A card behind a bus with its callback registered. -/
def wiredCard (card : Sdcard Unit) : BitbangSpi (Sdcard Unit) :=
  bitbangSpiInit (sdcard blockImage) { viaInit with callbacks := [0] } card

theorem wiredCard_card (card : Sdcard Unit) : (wiredCard card).card = card := rfl

/-- CMD0 after a fill byte: the program reads its answer with the next byte. -/
theorem via_session_exchanges_of_reset :
    ((wiredCard (sdcardInit ())).session (sdcard blockImage) 0
        (driveBytes [0xFF, 0x40, 0x00, 0x00, 0x00, 0x00, 0x95, 0xFF])).1.map SpiEdge.seen =
      ([0xFF, 0xFF, 0xFF, 0xFF, 0xFF, 0xFF, 0xFF, 0x01] : List (BitVec 8)).flatMap bits := by
  refine (via_session_exchanges (sdcard blockImage) 0 (bitbangSpiInit_atByte _ _ _) _ (by decide +kernel)
    [0xFF, 0x40, 0x00, 0x00, 0x00, 0x00, 0x95, 0xFF] (by decide +kernel)).1.trans ?_
  decide +kernel

/-! ## The card -/

/-- The calls of the card that an exchange of bytes comes to. -/
def sdBytes (sent : List (BitVec 8)) : List SdOp := sent.flatMap fun byte => [.get, .write byte]

theorem sdExchange_eq (file : SdImage φ) (s : Sdcard φ) (sent : List (BitVec 8)) :
    (sdcard file).duplex.exchange s sent = (sdReads file s (sdBytes sent), sdRun file s (sdBytes sent)) := by
  induction sent generalizing s with
  | nil => rfl
  | cons byte rest ih =>
    rw [Device.exchange, ih]
    rfl

end Cb6502
