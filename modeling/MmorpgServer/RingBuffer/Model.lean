import MmorpgServer.Lib.BoundedFifo

/-!
# The ring buffer of `ringbuffer.c`

A translation of `ringbuffer_t` and of its operations. All positions and sizes are 32-bit
unsigned words, as in the source, and every comparison and difference is the word
operation the source performs. Memory is a function from byte offsets to bytes; `memcpy`
is `blit`.

## Main definitions

* `Ringbuffer`, `rbInit`, `rbIsEmpty`, `rbIsFull`, `rbLength`, `rbReamin`, `rbWrite`, `rbRead`
* `roundupPowerOfTwo`, `isPowerOfTwo` — the helpers of `ringbuffer.h` for sizes
* `Op`, `Log`, `Log.step` — a run of reads and writes, with what went in and what came out
-/

namespace MmorpgServer.RingBuffer

/-- A memory region, by byte offset. -/
abbrev Mem := ℕ → UInt8

/-- `ringbuffer_t` -/
structure Ringbuffer where
  buf : Mem
  size : UInt32
  /-- where to read; runs freely through all 32-bit values -/
  readPos : UInt32
  /-- where to write -/
  writePos : UInt32

/-- The value `-1` returned as a `uint32_t`. -/
def uint32Max : UInt32 := 4294967295

/-- `min`, the macro of `ringbuffer.h` -/
def minMacro (lth rth : UInt32) : UInt32 := if lth < rth then lth else rth

/-- `rb_init`; `junk` is what the region returned by `malloc` contains. The region has
`sz * sizeof(uint8_t*)` bytes, eight times as many as are used. -/
def rbInit (junk : Mem) (sz : UInt32) : Ringbuffer where
  buf := junk
  size := sz
  readPos := uint32Max - 2
  writePos := uint32Max - 2

/-- `rb_is_empty` -/
def rbIsEmpty (t : Ringbuffer) : Bool := t.readPos == t.writePos

/-- `rb_is_full` -/
def rbIsFull (t : Ringbuffer) : Bool := t.size == t.writePos - t.readPos

/-- `rb_length` -/
def rbLength (t : Ringbuffer) : UInt32 := t.writePos - t.readPos

/-- `rb_reamin` (sic) -/
def rbReamin (t : Ringbuffer) : UInt32 := t.size - rbLength t

/-- `rb_write`. The second argument of `min` is `size - write_pos & (size - 1)`: the
subtraction binds tighter than the mask, in C as here. -/
def rbWrite (dst : Ringbuffer) (srcBuf : Mem) (srcSz : UInt32) : UInt32 × Ringbuffer :=
  if srcSz > rbReamin dst then
    (uint32Max, dst)
  else
    let i := minMacro srcSz (dst.size - dst.writePos &&& (dst.size - 1))
    let buf := blit dst.buf (dst.writePos &&& (dst.size - 1)).toNat srcBuf 0 i.toNat
    let buf := blit buf 0 srcBuf i.toNat (srcSz - i).toNat
    (srcSz, { dst with buf := buf, writePos := dst.writePos + srcSz })

/-- What `rb_read` leaves: the value it returns, the destination memory, the buffer. -/
structure ReadResult where
  ret : UInt32
  dstBuf : Mem
  rb : Ringbuffer

/-- `rb_read` -/
def rbRead (src : Ringbuffer) (dstBuf : Mem) (dstSz : UInt32) : ReadResult :=
  if rbIsEmpty src then
    ⟨uint32Max, dstBuf, src⟩
  else
    let dstSz := minMacro dstSz (rbLength src)
    let i := minMacro dstSz (src.size - src.readPos &&& (src.size - 1))
    let out := blit dstBuf 0 src.buf (src.readPos &&& (src.size - 1)).toNat i.toNat
    let out := blit out i.toNat src.buf 0 (dstSz - i).toNat
    ⟨dstSz, out, { src with readPos := src.readPos + dstSz }⟩

/-! ### Sizes -/

/-- The loop of `roundup_power_of_two`, with `fuel` bounding its rounds; `none` means that it
still runs. Its body is the expression `sz>>1`, whose value goes nowhere: `sz` stays what it
is. -/
def roundupLoop : ℕ → UInt32 → ℕ → Option ℕ
  | 0, _, _ => none
  | fuel + 1, sz, i => if sz ≠ 0 then roundupLoop fuel sz (i + 1) else some i

/-- `roundup_power_of_two` -/
def roundupPowerOfTwo (fuel : ℕ) (sz : UInt32) : Option UInt32 :=
  if sz < 2 then some 2
  else (roundupLoop fuel sz 0).map fun i => 1 <<< UInt32.ofNat i

/-- `is_power_of_two` -/
def isPowerOfTwo (sz : UInt32) : ℤ :=
  if sz < 2 then -1 else if sz &&& (sz - 1) = 0 then 1 else 0

/-! ### Runs -/

/-- A call of `rb_write` or `rb_read`: the caller's memory and the length it passes. -/
inductive Op where
  | write (srcBuf : Mem) (srcSz : UInt32)
  | read (dstBuf : Mem) (dstSz : UInt32)

/-- A buffer with the bytes of all accepted writes and of all reads so far. -/
structure Log where
  rb : Ringbuffer
  accepted : List UInt8
  delivered : List UInt8

/-- One call. A call that returns `UINT32_MAX` moved no byte. -/
def Log.step (st : Log) : Op → Log
  | .write srcBuf srcSz =>
    let r := rbWrite st.rb srcBuf srcSz
    if r.1 = uint32Max then { st with rb := r.2 }
    else { st with rb := r.2, accepted := st.accepted ++ segment srcBuf r.1.toNat }
  | .read dstBuf dstSz =>
    let r := rbRead st.rb dstBuf dstSz
    if r.ret = uint32Max then { st with rb := r.rb }
    else { st with rb := r.rb, delivered := st.delivered ++ segment r.dstBuf r.ret.toNat }

/-- The log after a sequence of calls on a fresh buffer. -/
def runOps (junk : Mem) (sz : UInt32) (ops : List Op) : Log :=
  ops.foldl Log.step ⟨rbInit junk sz, [], []⟩

/-- The bytes accepted and not yet delivered. -/
def Log.unread (st : Log) : List UInt8 := st.accepted.drop st.delivered.length

end MmorpgServer.RingBuffer
