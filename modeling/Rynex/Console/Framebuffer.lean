import Rynex.Lib.Queue

/-! The framebuffer console: the cursor, and every access that its operations make to the bytes of
the framebuffer. Offsets are relative to the address of the framebuffer and wrap as the 32- and
64-bit sums of the source do. -/

namespace Rynex.Console

open Rynex.Lib

def fontW : Nat := 8

def fontH : Nat := 16

def fbTypeRgb : UInt8 := 1

structure FbInfo where
  addr : UInt64
  pitch : UInt32
  width : UInt32
  height : UInt32
  bpp : UInt8
  fbType : UInt8
  redPos : UInt8
  redMask : UInt8
  greenPos : UInt8
  greenMask : UInt8
  bluePos : UInt8
  blueMask : UInt8

def fbBytesPerPixel (bpp : UInt8) : Nat :=
  if bpp = 32 then 4 else if bpp = 24 then 3 else if bpp = 15 ∨ bpp = 16 then 2 else 0

namespace FbInfo

/-- `pitch * height` bytes. -/
def size (fb : FbInfo) : Nat := fb.pitch.toNat * fb.height.toNat

def bytes (fb : FbInfo) : Nat := fbBytesPerPixel fb.bpp

/-- `init`: the description that is left pending. -/
def init (info : FbInfo) : Option FbInfo :=
  if info.width.toNat < fontW ∨ info.height.toNat < fontH then none
  else if info.fbType ≠ fbTypeRgb then none
  else if fbBytesPerPixel info.bpp = 0 then none
  else if 2 ^ 64 ≤ info.addr.toNat + info.size then none
  else some info

def cols (fb : FbInfo) : Nat := fb.width.toNat / fontW

def rows (fb : FbInfo) : Nat := fb.height.toNat / fontH

/-- `y * pitch`, in 64 bits. -/
def lineStart (fb : FbInfo) (y : Nat) : Nat := y * fb.pitch.toNat % 2 ^ 64

end FbInfo

/-! ### Accesses -/

/-- A pixel is stored byte by byte; a scan line is copied inside the framebuffer. -/
inductive Access where
  | pixel (off : Nat) (stored : List UInt8)
  | scanline (src dst len : Nat)

/-- The bytes accessed are among the first `size`. -/
def Access.Inside (size : Nat) : Access → Prop
  | .pixel off stored => off + stored.length ≤ size
  | .scanline src dst len => src + len ≤ size ∧ dst + len ≤ size

def scale (v mask : Nat) : Nat := if mask = 0 then 0 else if 8 ≤ mask then v else v >>> (8 - mask)

def encodePixel (fb : FbInfo) (color : UInt32) : Nat :=
  let channel := fun shift mask pos : Nat =>
    (scale (color.toNat >>> shift % 256) mask <<< (pos % 32)) % 2 ^ 32
  channel 16 fb.redMask.toNat fb.redPos.toNat ||| channel 8 fb.greenMask.toNat fb.greenPos.toNat |||
    channel 0 fb.blueMask.toNat fb.bluePos.toNat

def putPixel (fb : FbInfo) (x y : Nat) (color : UInt32) : Access :=
  .pixel ((y * fb.pitch.toNat + x * fb.bytes) % 2 ^ 64)
    ((List.range fb.bytes).map fun i => UInt8.ofNat (encodePixel fb color >>> (8 * i)))

/-- The font: a scan line of the glyph of a character. -/
abbrev Font := Char → Nat → UInt8

structure FbCon where
  col : Nat
  row : Nat
  fg : UInt32
  bg : UInt32

namespace FbCon

/-- The console that `enable_console` leaves, before it is cleared. -/
def enabled : FbCon := ⟨0, 0, 0xFFFFFF, 0⟩

variable (font : Font) (fb : FbInfo) (s : FbCon)

def clear : List Access × FbCon :=
  ((List.range fb.width.toNat).map (putPixel fb · 0 s.bg) ++
      (List.range' 1 (fb.height.toNat - 1)).map (fun y =>
        .scanline 0 (fb.lineStart y) fb.pitch.toNat),
    { s with col := 0, row := 0 })

def clearCell (x y : Nat) : List Access :=
  let x0 := x * fontW % 2 ^ 32
  let y0 := y * fontH % 2 ^ 32
  (List.range fontH).flatMap fun yy => (List.range fontW).map fun xx =>
    putPixel fb ((x0 + xx) % 2 ^ 32) ((y0 + yy) % 2 ^ 32) s.bg

def scroll : List Access :=
  ((List.range' fontH (fb.height.toNat - fontH)).map fun y =>
      .scanline (fb.lineStart y) (fb.lineStart (y - fontH)) fb.pitch.toNat) ++
    (List.range' (fb.height.toNat - fontH) fontH).flatMap fun y =>
      (List.range fb.width.toNat).map (putPixel fb · y s.bg)

def newline : List Access × FbCon :=
  let row := (s.row + 1) % 2 ^ 32
  if fb.rows ≤ row then (s.scroll fb, { s with col := 0, row := fb.rows - 1 })
  else ([], { s with col := 0, row := row })

def backspace : List Access × FbCon :=
  if 0 < s.col then (s.clearCell fb (s.col - 1) s.row, { s with col := s.col - 1 }) else ([], s)

def eraseToBottom : List Access × FbCon :=
  ((List.range' s.row (fb.rows - s.row)).flatMap fun y =>
      let sx := if y = s.row then s.col else 0
      (List.range' sx (fb.cols - sx)).flatMap fun x => s.clearCell fb x y,
    s)

def glyph (c : Char) : List Access :=
  let x0 := s.col * fontW % 2 ^ 32
  let y0 := s.row * fontH % 2 ^ 32
  (List.range 16).flatMap fun r => (List.range 8).map fun x =>
    putPixel fb ((x0 + x) % 2 ^ 32) ((y0 + r) % 2 ^ 32)
      (if (font c r).toNat >>> (7 - x) &&& 1 ≠ 0 then s.fg else s.bg)

def drawGlyph (c : Char) : List Access × FbCon :=
  let c := if c.toNat < 0x20 ∨ c.toNat = 0x7F then ' ' else c
  let wrapped := if fb.cols ≤ s.col then s.newline fb else ([], s)
  (wrapped.1 ++ wrapped.2.glyph font fb c,
    { wrapped.2 with col := (wrapped.2.col + 1) % 2 ^ 32 })

def writeChar (c : Char) : List Access × FbCon :=
  if c = '\n' then s.newline fb
  else if c = '\r' then ([], { s with col := 0 })
  else if c = '\t' then
    let r := answers (fun s (_ : Unit) => drawGlyph font fb s ' ') s
      (List.replicate (4 - s.col % 4) ())
    (r.1.flatten, r.2)
  else if c = '\x08' then s.backspace fb
  else s.drawGlyph font fb c

inductive Op where
  | clear
  | newline
  | carriageReturn
  | home
  | backspace
  | eraseToBottom
  | setColor (fg bg : UInt32)
  | writeChar (c : Char)

def step : Op → List Access × FbCon
  | .clear => s.clear fb
  | .newline => s.newline fb
  | .carriageReturn => ([], { s with col := 0 })
  | .home => ([], { s with col := 0, row := 0 })
  | .backspace => s.backspace fb
  | .eraseToBottom => s.eraseToBottom fb
  | .setColor fg bg => ([], { s with fg := fg, bg := bg })
  | .writeChar c => s.writeChar font fb c

end FbCon

/-! ### The geometry -/

/-- What `init` accepts, with a pitch of at least one row of pixels. -/
structure FbInfo.Sound (fb : FbInfo) : Prop where
  width : fontW ≤ fb.width.toNat
  height : fontH ≤ fb.height.toNat
  pitch : fb.width.toNat * fb.bytes ≤ fb.pitch.toNat
  size : fb.size < 2 ^ 64

variable {fb : FbInfo} {x y : Nat}

theorem FbInfo.sound_of_init {info : FbInfo} (h : info.init = some fb)
    (hpitch : info.width.toNat * info.bytes ≤ info.pitch.toNat) : fb.Sound := by
  unfold FbInfo.init at h
  split_ifs at h with hsmall htype hbpp hrange
  obtain rfl := Option.some.inj h
  exact ⟨by omega, by omega, hpitch, by omega⟩

theorem FbInfo.lineStart_add_le (hy : y < fb.height.toNat) :
    fb.lineStart y + fb.pitch.toNat ≤ fb.size := by
  have hle : (y + 1) * fb.pitch.toNat ≤ fb.size := by
    rw [FbInfo.size, Nat.mul_comm fb.pitch.toNat]
    exact Nat.mul_le_mul_right _ hy
  rw [Nat.succ_mul] at hle
  have hmod := Nat.mod_le (y * fb.pitch.toNat) (2 ^ 64)
  unfold FbInfo.lineStart
  omega

theorem FbInfo.Sound.pixel (h : fb.Sound) (hx : x < fb.width.toNat) (hy : y < fb.height.toNat)
    (color : UInt32) : (putPixel fb x y color).Inside fb.size := by
  have hrow : (y + 1) * fb.pitch.toNat ≤ fb.size := by
    rw [FbInfo.size, Nat.mul_comm fb.pitch.toNat]
    exact Nat.mul_le_mul_right _ hy
  have hcol : (x + 1) * fb.bytes ≤ fb.pitch.toNat := (Nat.mul_le_mul_right _ hx).trans h.pitch
  rw [Nat.succ_mul] at hrow hcol
  have hmod := Nat.mod_le (y * fb.pitch.toNat + x * fb.bytes) (2 ^ 64)
  simp only [Access.Inside, putPixel, List.length_map, List.length_range]
  omega

theorem cols_mul_le (fb : FbInfo) : fb.cols * fontW ≤ fb.width.toNat := Nat.div_mul_le_self _ _

theorem rows_mul_le (fb : FbInfo) : fb.rows * fontH ≤ fb.height.toNat := Nat.div_mul_le_self _ _

theorem FbInfo.Sound.cols_pos (h : fb.Sound) : 0 < fb.cols := Nat.div_pos h.width (by decide)

theorem FbInfo.Sound.rows_pos (h : fb.Sound) : 0 < fb.rows := Nat.div_pos h.height (by decide)

theorem FbInfo.Sound.cell (h : fb.Sound) (hx : x < fb.cols) (hy : y < fb.rows) {i j : Nat}
    (hi : i < fontW) (hj : j < fontH) (color : UInt32) :
    (putPixel fb ((x * fontW % 2 ^ 32 + i) % 2 ^ 32) ((y * fontH % 2 ^ 32 + j) % 2 ^ 32)
      color).Inside fb.size := by
  have hcols := cols_mul_le fb
  have hrows := rows_mul_le fb
  have hwidth := fb.width.toNat_lt
  have hheight := fb.height.toNat_lt
  unfold fontW fontH at *
  refine h.pixel ?_ ?_ color
  · omega
  · omega

/-! ### The operations -/

/-- All accesses lie inside, and the cursor is in the grid or behind the last column of a row. -/
structure Keeps (fb : FbInfo) (r : List Access × FbCon) : Prop where
  inside : ∀ a ∈ r.1, a.Inside fb.size
  col : r.2.col ≤ fb.cols
  row : r.2.row < fb.rows

variable {font : Font} {s : FbCon}

theorem clearCell_inside (h : fb.Sound) (hx : x < fb.cols) (hy : y < fb.rows) :
    ∀ a ∈ s.clearCell fb x y, a.Inside fb.size := by
  intro a ha
  simp only [FbCon.clearCell, List.mem_flatMap, List.mem_map, List.mem_range] at ha
  obtain ⟨j, hj, i, hi, rfl⟩ := ha
  exact h.cell hx hy hi hj _

theorem scroll_inside (h : fb.Sound) : ∀ a ∈ s.scroll fb, a.Inside fb.size := by
  intro a ha
  simp only [FbCon.scroll, List.mem_append, List.mem_flatMap, List.mem_map, List.mem_range,
    List.mem_range'_1] at ha
  rcases ha with ⟨y, hy, rfl⟩ | ⟨y, hy, x, hx, rfl⟩
  · exact ⟨FbInfo.lineStart_add_le (by omega), FbInfo.lineStart_add_le (by omega)⟩
  · have hheight := h.height
    exact h.pixel hx (by omega) _

/-- A line wrap or a scroll leaves the cursor at the start of a row of the grid. -/
theorem keeps_newline (h : fb.Sound) (s : FbCon) :
    Keeps fb (s.newline fb) ∧ (s.newline fb).2.col < fb.cols := by
  have hcols := h.cols_pos
  have hrows := h.rows_pos
  unfold FbCon.newline
  simp only
  split_ifs with hlast
  · exact ⟨⟨scroll_inside h, Nat.zero_le _, Nat.sub_lt hrows Nat.one_pos⟩, hcols⟩
  · exact ⟨⟨nofun, Nat.zero_le _, Nat.lt_of_not_le hlast⟩, hcols⟩

theorem keeps_clear (h : fb.Sound) : Keeps fb (s.clear fb) := by
  refine ⟨fun a ha => ?_, Nat.zero_le _, h.rows_pos⟩
  have hheight := h.height
  unfold fontH at hheight
  simp only [FbCon.clear, List.mem_append, List.mem_map, List.mem_range, List.mem_range'_1] at ha
  rcases ha with ⟨x, hx, rfl⟩ | ⟨y, hy, rfl⟩
  · exact h.pixel hx (by omega) _
  · refine ⟨?_, FbInfo.lineStart_add_le (by omega)⟩
    have hfirst := FbInfo.lineStart_add_le (show 0 < fb.height.toNat by omega)
    omega

theorem keeps_backspace (h : fb.Sound) (hcol : s.col ≤ fb.cols) (hrow : s.row < fb.rows) :
    Keeps fb (s.backspace fb) := by
  unfold FbCon.backspace
  split_ifs with hpos
  · exact ⟨clearCell_inside h (by omega) hrow, (Nat.sub_le _ _).trans hcol, hrow⟩
  · exact ⟨nofun, hcol, hrow⟩

theorem keeps_eraseToBottom (h : fb.Sound) (hcol : s.col ≤ fb.cols) (hrow : s.row < fb.rows) :
    Keeps fb (s.eraseToBottom fb) := by
  refine ⟨fun a ha => ?_, hcol, hrow⟩
  simp only [FbCon.eraseToBottom, List.mem_flatMap, List.mem_range'_1] at ha
  obtain ⟨y, hy, x, hx, hcell⟩ := ha
  exact clearCell_inside h (by omega) (by omega) a hcell

theorem glyph_inside (h : fb.Sound) (hcol : s.col < fb.cols) (hrow : s.row < fb.rows) (c : Char) :
    ∀ a ∈ s.glyph font fb c, a.Inside fb.size := by
  intro a ha
  simp only [FbCon.glyph, List.mem_flatMap, List.mem_map, List.mem_range] at ha
  obtain ⟨j, hj, i, hi, rfl⟩ := ha
  exact h.cell hcol hrow hi hj _

theorem keeps_drawGlyph (h : fb.Sound) (hrow : s.row < fb.rows) (c : Char) :
    Keeps fb (s.drawGlyph font fb c) := by
  unfold FbCon.drawGlyph
  simp only
  by_cases hwrap : fb.cols ≤ s.col
  · obtain ⟨hnew, hlt⟩ := keeps_newline h s
    rw [if_pos hwrap]
    refine ⟨fun a ha => ?_, (Nat.mod_le _ _).trans hlt, hnew.row⟩
    exact (List.mem_append.mp ha).elim (hnew.inside a) (glyph_inside h hlt hnew.row _ a)
  · have hlt := Nat.lt_of_not_le hwrap
    rw [if_neg hwrap]
    exact ⟨glyph_inside h hlt hrow _, (Nat.mod_le _ _).trans hlt, hrow⟩

/-- Operations that keep the cursor keep it over a run, whose accesses all lie inside. -/
theorem keeps_answers {ε : Type*} {step : FbCon → ε → List Access × FbCon}
    (hstep : ∀ s e, s.col ≤ fb.cols → s.row < fb.rows → Keeps fb (step s e)) (es : List ε)
    (hcol : s.col ≤ fb.cols) (hrow : s.row < fb.rows) :
    Keeps fb ((answers step s es).1.flatten, (answers step s es).2) := by
  induction es generalizing s with
  | nil => exact ⟨nofun, hcol, hrow⟩
  | cons e es ih =>
    have hfirst := hstep s e hcol hrow
    obtain ⟨hinside, hcol', hrow'⟩ := ih hfirst.col hfirst.row
    refine ⟨fun a ha => ?_, hcol', hrow'⟩
    simp only [answers, List.flatten_cons, List.mem_append] at ha
    exact ha.elim (hfirst.inside a) (hinside a)

theorem keeps_writeChar (h : fb.Sound) (hcol : s.col ≤ fb.cols) (hrow : s.row < fb.rows)
    (c : Char) : Keeps fb (s.writeChar font fb c) := by
  unfold FbCon.writeChar
  split_ifs
  · exact (keeps_newline h s).1
  · exact ⟨nofun, Nat.zero_le _, hrow⟩
  · exact keeps_answers (fun s _ _ hrow => keeps_drawGlyph h hrow ' ') _ hcol hrow
  · exact keeps_backspace h hcol hrow
  · exact keeps_drawGlyph h hrow c

theorem keeps_step (h : fb.Sound) (hcol : s.col ≤ fb.cols) (hrow : s.row < fb.rows)
    (op : FbCon.Op) : Keeps fb (s.step font fb op) := by
  cases op with
  | clear => exact keeps_clear h
  | newline => exact (keeps_newline h s).1
  | carriageReturn => exact ⟨nofun, Nat.zero_le _, hrow⟩
  | home => exact ⟨nofun, Nat.zero_le _, h.rows_pos⟩
  | backspace => exact keeps_backspace h hcol hrow
  | eraseToBottom => exact keeps_eraseToBottom h hcol hrow
  | setColor fg bg => exact ⟨nofun, hcol, hrow⟩
  | writeChar c => exact keeps_writeChar h hcol hrow c

/-- For every description that `init` accepts with a pitch of at least one row of pixels, all
accesses of every run lie inside the framebuffer, the cursor is in the grid or behind the last
column of a row, and a line wrap or scroll leaves it in the grid. -/
theorem framebuffer_accesses_inside (font : Font) (info fb : FbInfo) (hinit : info.init = some fb)
    (hpitch : info.width.toNat * info.bytes ≤ info.pitch.toNat) (ops : List FbCon.Op) :
    let r := answers (FbCon.step font fb) FbCon.enabled (.clear :: ops)
    (∀ accesses ∈ r.1, ∀ a ∈ accesses, a.Inside fb.size) ∧
      r.2.col ≤ fb.cols ∧ r.2.row < fb.rows ∧
      (r.2.newline fb).2.col < fb.cols ∧ (r.2.newline fb).2.row < fb.rows := by
  intro r
  have hsound := FbInfo.sound_of_init hinit hpitch
  have hrun : Keeps fb (r.1.flatten, r.2) :=
    keeps_answers (fun s op hcol hrow => keeps_step hsound hcol hrow op) (.clear :: ops)
      (Nat.zero_le _) hsound.rows_pos
  obtain ⟨hwrap, hcol⟩ := keeps_newline hsound r.2
  exact ⟨fun l hl a ha => hrun.inside a (List.mem_flatten.mpr ⟨l, hl, ha⟩), hrun.col, hrun.row,
    hcol, hwrap.row⟩

/-- A picture of one cell, into which one character and a second one behind it are written. -/
theorem framebuffer_accesses_inside_cell :
    let fb : FbInfo := ⟨0xFD000000, 32, 8, 16, 32, fbTypeRgb, 16, 8, 8, 8, 0, 8⟩
    let r := answers (FbCon.step (fun _ _ => 0) fb) FbCon.enabled
      [.clear, .writeChar 'a', .writeChar 'b']
    fb.init = some fb ∧ (∀ accesses ∈ r.1, ∀ a ∈ accesses, a.Inside fb.size) ∧
      r.2.col ≤ fb.cols := by
  intro fb r
  have hinit : fb.init = some fb := by
    rw [FbInfo.init, if_neg (by decide), if_neg (by decide), if_neg (by decide), if_neg (by decide)]
  obtain ⟨hinside, hcol, -⟩ := framebuffer_accesses_inside (fun _ _ => 0) fb fb hinit (by decide)
    [.writeChar 'a', .writeChar 'b']
  exact ⟨hinit, hinside, hcol⟩

end Rynex.Console
