import Mathlib.Algebra.Order.BigOperators.Group.List
import Musl.Lib.Octets

/-!
# imsg: messages over a stream socket

`bsd/imsg.c` and `bsd/imsg-buffer.c` send messages, some of them with a file descriptor, over a
stream that keeps no message boundaries.  The sender has a queue of buffers, which `msgbuf_write`
gives to `sendmsg` together, up to the next one that has a descriptor; `sendmsg` may take only a
part of them.  The receiver has one buffer of 65535 octets, to which `imsg_read` adds what `recvmsg`
returns, and a queue of the descriptors that have come; `imsg_get` takes a message off the buffer
when all of it is there.

The stream is a list of octets, each with the descriptor that was sent along with it if it was the
first one of a `sendmsg`.  A descriptor is the open file that it stands for.  Allocations succeed;
where a function returns -1 the result is `none`.  A call of `recvmsg` takes at least one octet, and
at most one with a descriptor.
-/

namespace Musl.Bsd.ImsgBuf

open Musl.Lib.Octets List Option Nat Prod

/-- An open file, whose descriptors are passed. -/
abbrev Fd := ℕ

/-! ### The header -/

/-- `struct imsg_hdr`. -/
structure Hdr where
  type : UInt32
  len : UInt16
  flags : UInt16
  peerid : UInt32
  pid : UInt32
deriving DecidableEq

/-- A number of `k` octets as it is in memory. -/
def littleEndian (n k : ℕ) : List UInt8 := (octets n k).reverse

def fromLittleEndian (bs : List UInt8) : ℕ := value 0 bs.reverse

def Hdr.bytes (h : Hdr) : List UInt8 :=
  littleEndian h.type.toNat 4 ++ littleEndian h.len.toNat 2 ++ littleEndian h.flags.toNat 2 ++
    littleEndian h.peerid.toNat 4 ++ littleEndian h.pid.toNat 4

/-- `IMSG_HEADER_SIZE`. -/
def headerSize : ℕ := 16

def maxImsgsize : ℕ := 16384

def ibufReadSize : ℕ := 65535

def iovMax : ℕ := 1024

def readHdr (bs : List UInt8) : Hdr where
  type := UInt32.ofNat (fromLittleEndian (bs.take 4))
  len := UInt16.ofNat (fromLittleEndian ((bs.drop 4).take 2))
  flags := UInt16.ofNat (fromLittleEndian ((bs.drop 6).take 2))
  peerid := UInt32.ofNat (fromLittleEndian ((bs.drop 8).take 4))
  pid := UInt32.ofNat (fromLittleEndian ((bs.drop 12).take 4))

/-! ### Composing -/

/-- `struct ibuf`; `buf` is what has been added, so `wpos` is its length. -/
structure Ibuf where
  buf : List UInt8
  size : ℕ
  max : ℕ
  rpos : ℕ
  fd : Option Fd
deriving DecidableEq

def ibufDynamic (len max : ℕ) : Option Ibuf :=
  if max < len then none
    else some { buf := [], size := len, max := if max > 0 then max else len, rpos := 0, fd := none }

/-- `ibuf_add`, with `ibuf_realloc`. -/
def ibufAdd (b : Ibuf) (data : List UInt8) : Option Ibuf :=
  if b.buf.length + data.length > b.size then
    if b.buf.length + data.length > b.max then none
    else some { b with buf := b.buf ++ data, size := b.buf.length + data.length }
  else some { b with buf := b.buf ++ data }

def imsgAdd (msg : Ibuf) (data : List UInt8) : Option Ibuf :=
  if data.length ≠ 0 then ibufAdd msg data else some msg

/-- The arguments of `imsg_compose`; the length of the data is a `uint16_t`. -/
structure Args where
  type : UInt32
  peerid : UInt32
  pid : UInt32
  fd : Option Fd
  data : List UInt8
deriving DecidableEq

/-- `imsg_create`, by a process `self`; `junk` is what is in `hdr.len`. -/
def imsgCreate (self : UInt32) (junk : UInt16) (a : Args) : Option Ibuf := do
  let datalen := (a.data.length + headerSize) % 2 ^ 16
  if datalen > maxImsgsize then none
  else
    let pid := if a.pid = 0 then self else a.pid
    let wbuf ← ibufDynamic datalen maxImsgsize
    imsgAdd wbuf (Hdr.bytes { type := a.type, len := junk, flags := 0, peerid := a.peerid, pid })

/-- `imsg_close`, without the queue. -/
def imsgClose (msg : Ibuf) : Ibuf :=
  let hdr := readHdr msg.buf
  let flags := hdr.flags &&& ~~~1
  let flags := if msg.fd.isSome then flags ||| 1 else flags
  { msg with
    buf := Hdr.bytes { hdr with flags, len := UInt16.ofNat msg.buf.length } ++ msg.buf.drop headerSize }

/-- `imsg_compose`: the buffer that is queued. -/
def imsgCompose (self : UInt32) (junk : UInt16) (a : Args) : Option Ibuf := do
  let wbuf ← imsgCreate self junk a
  let wbuf ← imsgAdd wbuf a.data
  return imsgClose { wbuf with fd := a.fd }

/-- `imsg_composev`, with the pieces `iov` for the data of `a`: the length of each is made a
`uint16_t` for `imsg_add`. -/
def imsgComposev (self : UInt32) (junk : UInt16) (a : Args) (iov : List (List UInt8)) : Option Ibuf := do
  let wbuf ← imsgCreate self junk { a with data := iov.flatten }
  let wbuf ← iov.foldlM (fun wbuf base => imsgAdd wbuf (base.take (base.length % 2 ^ 16))) wbuf
  return imsgClose { wbuf with fd := a.fd }

/-! ### Sending -/

/-- An octet on the stream, with the descriptor that came along. -/
abbrev Octet := UInt8 × Option Fd

/-- Octets of one `sendmsg`: the descriptor goes with the first of them. -/
def withFd (fd : Option Fd) : List UInt8 → List Octet
  | [] => []
  | b :: bs => (b, fd) :: bs.map fun b => (b, none)

def Ibuf.left (b : Ibuf) : List UInt8 := b.buf.drop b.rpos

/-- The buffers that are given to `sendmsg` after the first `i` of them. -/
def batch : ℕ → List Ibuf → List Ibuf
  | _, [] => []
  | i, b :: bs =>
    if i ≥ iovMax then []
    else if i > 0 ∧ b.fd.isSome then []
    else b :: batch (i + 1) bs

/-- The descriptor that goes along: that of the last buffer given which has one. -/
def batchFd (bs : List Ibuf) : Option Fd := bs.foldl (fun fd b => if b.fd.isSome then b.fd else fd) none

def msgbufDrain : List Ibuf → ℕ → List Ibuf
  | [], _ => []
  | b :: bs, n =>
    if n = 0 then b :: bs
    else if b.rpos + n ≥ b.buf.length then msgbufDrain bs (n - (b.buf.length - b.rpos))
    else { b with rpos := b.rpos + n } :: bs

/-- `buf0->fd = -1`, for the buffer whose descriptor was sent. -/
def closeFd (bs : List Ibuf) : List Ibuf :=
  match bs with
  | [] => []
  | b :: bs => { b with fd := none } :: bs

/-- `msgbuf_write`, when `sendmsg` takes `n` octets: what is sent, and the queue that is left. -/
def msgbufWrite (queue : List Ibuf) (n : ℕ) : List Octet × List Ibuf :=
  let given := batch 0 queue
  let sent := withFd (batchFd given) ((given.flatMap Ibuf.left).take n)
  (sent, msgbufDrain (closeFd queue) n)

/-! ### Receiving -/

/-- `struct imsgbuf`, the side of the receiver: the first `wpos` octets of the buffer, and the
descriptors. -/
structure Receiver where
  buf : List UInt8
  fds : List Fd
deriving DecidableEq

/-- `imsg_read`, when `recvmsg` returns these octets. -/
def imsgRead (r : Receiver) (got : List Octet) : Receiver where
  buf := r.buf ++ got.map Prod.fst
  fds := r.fds ++ (got.filterMap Prod.snd).take 1

/-- `struct imsg`, of the header what the program asks for. -/
structure Imsg where
  type : UInt32
  peerid : UInt32
  pid : UInt32
  fd : Option Fd
  data : List UInt8
deriving DecidableEq

/-- `imsg_get`: nothing yet, or a message. -/
def imsgGet (r : Receiver) : Option (Option (Imsg × Receiver)) :=
  let av := r.buf.length
  if headerSize > av then some none
  else
    let hdr := readHdr r.buf
    if hdr.len.toNat < headerSize ∨ hdr.len.toNat > maxImsgsize then none
    else if hdr.len.toNat > av then some none
    else
      let datalen := hdr.len.toNat - headerSize
      let hasfd := hdr.flags &&& 1 ≠ 0
      let fd := if hasfd then r.fds.head? else none
      let fds := if hasfd then r.fds.tail else r.fds
      let data := (r.buf.drop headerSize).take datalen
      let imsg := { type := hdr.type, peerid := hdr.peerid, pid := hdr.pid, fd, data }
      some (some (imsg, { buf := r.buf.drop hdr.len.toNat, fds }))

/-- `imsg_get` until it returns 0. -/
def getAll : ℕ → Receiver → Option (List Imsg × Receiver)
  | 0, _ => none
  | fuel + 1, r =>
    match imsgGet r with
    | none => none
    | some none => some ([], r)
    | some (some (m, r)) => (getAll fuel r).map fun x => (m :: x.1, x.2)

/-! ### Both sides -/

structure State where
  queue : List Ibuf
  stream : List Octet
  receiver : Receiver
  composed : List Args
  returned : List Imsg
deriving DecidableEq

def init : State :=
  { queue := [], stream := [], receiver := { buf := [], fds := [] }, composed := [], returned := [] }

inductive Event
  | compose (junk : UInt16) (a : Args)
  | write (n : ℕ)
  | read (n : ℕ)

/-- What may happen: the payload of a message is not too long; `sendmsg` takes at least one octet
and no more than it was given; `recvmsg` returns at least one octet, no more than there are and than
there is room for, and not two descriptors. -/
def Enabled (s : State) : Event → Prop
  | .compose _ a => a.data.length ≤ maxImsgsize - headerSize
  | .write n => 0 < n ∧ n ≤ ((batch 0 s.queue).flatMap Ibuf.left).length
  | .read n => 0 < n ∧ n ≤ s.stream.length ∧ n ≤ ibufReadSize - s.receiver.buf.length ∧
      ((s.stream.take n).filterMap Prod.snd).length ≤ 1

/-- One call; after `imsg_read`, those of `imsg_get` as well. -/
def step (self : UInt32) (s : State) : Event → Option State
  | .compose junk a =>
    (imsgCompose self junk a).map fun b =>
    { s with queue := s.queue ++ [b], composed := s.composed ++ [a] }
  | .write n =>
    let r := msgbufWrite s.queue n
    some { s with queue := r.2, stream := s.stream ++ r.1 }
  | .read n =>
    let r := imsgRead s.receiver (s.stream.take n)
    (getAll (r.buf.length + 1) r).map fun x =>
      { s with stream := s.stream.drop n, receiver := x.2, returned := s.returned ++ x.1 }

inductive Reach (self : UInt32) : State → Prop
  | init : Reach self init
  | step {s s' : State} {e : Event} (h : Reach self s) (he : Enabled s e)
  (hs : step self s e = some s') : Reach self s'

def Args.imsg (a : Args) : Imsg :=
  { type := a.type, peerid := a.peerid, pid := a.pid, fd := a.fd, data := a.data }

/-- The message as it is to be received: a process id of 0 stands for the sender's. -/
def Args.delivered (self : UInt32) (a : Args) : Imsg :=
  { a.imsg with pid := if a.pid = 0 then self else a.pid }

/-! ### The octets of a message -/

section Wire

variable {a : Args} {self : UInt32}

lemma fromLittleEndian_littleEndian (n k : ℕ) : fromLittleEndian (littleEndian n k) = n % 256 ^ k := by
  rw [fromLittleEndian, littleEndian, reverse_reverse, value_octets, zero_mul, zero_add]

@[simp] lemma length_littleEndian (n k : ℕ) : (littleEndian n k).length = k := by
  rw [littleEndian, length_reverse, length_octets]

@[simp] lemma Hdr.length_bytes (h : Hdr) : h.bytes.length = headerSize := by
  simp [Hdr.bytes, headerSize]

lemma field_eq (pre rest : List UInt8) {n k : ℕ} (hn : n < 256 ^ k) :
    fromLittleEndian (((pre ++ (littleEndian n k ++ rest)).drop pre.length).take k) = n := by
  rw [drop_left, take_left' (length_littleEndian n k), fromLittleEndian_littleEndian, mod_eq_of_lt hn]

lemma readHdr_append (h : Hdr) (rest : List UInt8) : readHdr (h.bytes ++ rest) = h := by
  obtain ⟨type, len, flags, peerid, pid⟩ := h
  have h1 := field_eq [] (littleEndian len.toNat 2 ++
    (littleEndian flags.toNat 2 ++ (littleEndian peerid.toNat 4 ++
    (littleEndian pid.toNat 4 ++ rest)))) (k := 4) type.toNat_lt
  have h2 := field_eq (littleEndian type.toNat 4) (littleEndian flags.toNat 2 ++
    (littleEndian peerid.toNat 4 ++
    (littleEndian pid.toNat 4 ++ rest))) (k := 2) len.toNat_lt
  have h3 := field_eq (littleEndian type.toNat 4 ++ littleEndian len.toNat 2)
    (littleEndian peerid.toNat 4 ++
    (littleEndian pid.toNat 4 ++ rest)) (k := 2) flags.toNat_lt
  have h4 := field_eq (littleEndian type.toNat 4 ++ littleEndian len.toNat 2 ++
    littleEndian flags.toNat 2)
    (littleEndian pid.toNat 4 ++ rest) (k := 4) peerid.toNat_lt
  have h5 := field_eq (littleEndian type.toNat 4 ++ littleEndian len.toNat 2 ++
    littleEndian flags.toNat 2 ++
    littleEndian peerid.toNat 4) rest (k := 4) pid.toNat_lt
  simp only [length_append, length_littleEndian, append_assoc, nil_append, length_nil, drop_zero]
    at h1 h2 h3 h4 h5
  simp only [readHdr, Hdr.bytes, append_assoc, h1, h2, h3, h4, h5, UInt32.ofNat_toNat, UInt16.ofNat_toNat]

def wireHdr (self : UInt32) (a : Args) : Hdr where
  type := a.type
  len := UInt16.ofNat (headerSize + a.data.length)
  flags := if a.fd.isSome then 1 else 0
  peerid := a.peerid
  pid := if a.pid = 0 then self else a.pid

def wire (self : UInt32) (a : Args) : List UInt8 := (wireHdr self a).bytes ++ a.data

lemma length_wire (self : UInt32) (a : Args) : (wire self a).length = headerSize + a.data.length := by
  rw [wire, length_append, Hdr.length_bytes]

lemma wireHdr_len (h : a.data.length ≤ maxImsgsize - headerSize) :
    (wireHdr self a).len.toNat = (wire self a).length := by
  rw [length_wire]
  refine UInt16.toNat_ofNat_of_lt' ?_
  change _ < 65536
  simp only [headerSize, maxImsgsize] at h ⊢
  omega

/-- What comes of adding up to these octets: a buffer with all of them, or nothing if they are too
many. -/
def Adds (buf : List UInt8) (r : Option Ibuf) : Prop :=
  if buf.length ≤ maxImsgsize then
    ∃ size ≤ maxImsgsize, r = some { buf, size, max := maxImsgsize, rpos := 0, fd := none }
  else r = none

lemma imsgAdd_spec {buf : List UInt8} {size : ℕ} (hbuf : buf.length ≤ maxImsgsize)
    (hsize : size ≤ maxImsgsize) (data : List UInt8) :
    Adds (buf ++ data) (imsgAdd { buf, size, max := maxImsgsize, rpos := 0, fd := none } data) := by
  by_cases hempty : data.length = 0
  · rw [imsgAdd, length_eq_zero_iff.1 hempty, append_nil, Adds, if_pos hbuf]
    exact ⟨size, hsize, rfl⟩
  rw [imsgAdd, if_pos hempty, ibufAdd, Adds, length_append]
  dsimp only
  by_cases hmax : buf.length + data.length ≤ maxImsgsize
  · rw [if_neg (not_lt.2 hmax)]
    split_ifs
    · exact ⟨_, hmax, rfl⟩
    · exact ⟨size, hsize, rfl⟩
  · rw [if_neg hmax, if_pos (by omega), if_pos (not_le.1 hmax)]

lemma Hdr.length_le (h : Hdr) : h.bytes.length ≤ maxImsgsize := h.length_bytes.trans_le (by decide)

def openHdr (self : UInt32) (junk : UInt16) (a : Args) : Hdr where
  type := a.type
  len := junk
  flags := 0
  peerid := a.peerid
  pid := if a.pid = 0 then self else a.pid

lemma imsgCreate_spec (self : UInt32) (junk : UInt16)
    (h : (a.data.length + headerSize) % 2 ^ 16 ≤ maxImsgsize) :
    Adds (openHdr self junk a).bytes (imsgCreate self junk a) := by
  have hadd := imsgAdd_spec (show length [] ≤ maxImsgsize from zero_le _) h (openHdr self junk a).bytes
  rwa [imsgCreate, if_neg (not_lt.2 h), ibufDynamic, if_neg (not_lt.2 h)]

lemma imsgClose_spec (junk : UInt16) {r : Option Ibuf}
    (h : Adds ((openHdr self junk a).bytes ++ a.data) r)
    (hlen : headerSize + a.data.length ≤ maxImsgsize) :
    ∃ b, (do return imsgClose { ← r with fd := a.fd }) = some b ∧ b.buf = wire self a ∧ b.rpos = 0 ∧
    b.fd = a.fd := by
  have hflags : (if a.fd.isSome then (0 : UInt16) &&& ~~~1 ||| 1 else 0 &&& ~~~1) =
      if a.fd.isSome then 1 else 0 := by
    cases a.fd <;> rfl
  rw [Adds, length_append, Hdr.length_bytes, if_pos hlen] at h
  obtain ⟨-, -, rfl⟩ := h
  refine ⟨_, rfl, ?_, rfl, rfl⟩
  simp only [imsgClose, readHdr_append, length_append, wire, wireHdr]
  rw [← hflags]
  rfl

lemma imsgCompose_spec (junk : UInt16) (h : a.data.length ≤ maxImsgsize - headerSize) :
    ∃ b, imsgCompose self junk a = some b ∧ b.buf = wire self a ∧ b.rpos = 0 ∧ b.fd = a.fd := by
  have hmax : headerSize + a.data.length ≤ maxImsgsize := by
    simp only [headerSize, maxImsgsize] at h ⊢
    omega
  have hcreate :=
    imsgCreate_spec self junk ((mod_le (a.data.length + headerSize) _).trans
      (Nat.add_comm _ _ ▸ hmax))
  obtain ⟨size, hsize, hcreate⟩ := hcreate
  obtain ⟨b, hb, hspec⟩ := imsgClose_spec junk (imsgAdd_spec (Hdr.length_le _) hsize a.data) hmax
  refine ⟨b, ?_, hspec⟩
  rw [imsgCompose, hcreate, ← hb]
  rfl

/-! ### A message in pieces -/

def kept (iov : List (List UInt8)) : List UInt8 :=
  iov.flatMap fun base => base.take (base.length % 2 ^ 16)

lemma length_kept (iov : List (List UInt8)) :
    (kept iov).length = (iov.map fun base => base.length % 2 ^ 16).sum := by
  have hpiece : ∀ base : List UInt8,
      (base.take (base.length % 2 ^ 16)).length = base.length % 2 ^ 16 := fun base => by
    rw [length_take, min_eq_left (mod_le _ _)]
  simp only [kept, length_flatMap, hpiece]

lemma addAll_spec (iov : List (List UInt8)) {buf : List UInt8} {size : ℕ}
    (hbuf : buf.length ≤ maxImsgsize) (hsize : size ≤ maxImsgsize) : Adds (buf ++ kept iov)
      (iov.foldlM (fun wbuf base => imsgAdd wbuf (base.take (base.length % 2 ^ 16)))
        { buf, size, max := maxImsgsize, rpos := 0, fd := none }) := by
  induction iov generalizing buf size with
  | nil =>
    rw [kept, flatMap_nil, append_nil, Adds, if_pos hbuf]
    exact ⟨size, hsize, rfl⟩
  | cons base iov ih =>
    have hadd := imsgAdd_spec hbuf hsize (base.take (base.length % 2 ^ 16))
    have hkept : kept (base :: iov) = base.take (base.length % 2 ^ 16) ++ kept iov := flatMap_cons
    rw [foldlM_cons, hkept, ← append_assoc]
    by_cases hmax : (buf ++ base.take (base.length % 2 ^ 16)).length ≤ maxImsgsize
    · rw [Adds, if_pos hmax] at hadd
      obtain ⟨size', hsize', hadd⟩ := hadd
      rw [hadd]
      exact ih hmax hsize'
    · rw [Adds, if_neg hmax] at hadd
      rw [Adds, if_neg (by rw [length_append]; omega), hadd]
      rfl

lemma imsgComposev_spec (self : UInt32) (junk : UInt16) (a : Args) (iov : List (List UInt8)) :
    if headerSize + (kept iov).length ≤ maxImsgsize then
      ∃ b, imsgComposev self junk a iov = some b ∧ b.buf = wire self { a with data := kept iov }
    else imsgComposev self junk a iov = none := by
  by_cases hcreate : (iov.flatten.length + headerSize) % 2 ^ 16 ≤ maxImsgsize
  · have hopen := imsgCreate_spec (a := { a with data := iov.flatten }) self junk hcreate
    obtain ⟨size, hsize, hopen⟩ := hopen
    have hall := addAll_spec iov (Hdr.length_le (openHdr self junk { a with data := kept iov })) hsize
    rw [imsgComposev, hopen]
    split_ifs with hmax
    · obtain ⟨b, hb, hbuf, -⟩ := imsgClose_spec junk hall hmax
      exact ⟨b, hb, hbuf⟩
    · rw [Adds, length_append, Hdr.length_bytes, if_neg hmax] at hall
      exact congrArg (bind · _) hall
  · -- the lengths are the same modulo 2^16
    have hmod : iov.flatten.length % 2 ^ 16 = (kept iov).length % 2 ^ 16 := by
      rw [length_flatten, length_kept, sum_nat_mod, List.map_map]
      rfl
    rw [if_neg (by simp only [headerSize] at hcreate ⊢; omega), imsgComposev, imsgCreate,
      if_pos (not_le.1 hcreate)]
    rfl

/-- **All or nothing.**  What `imsg_composev` queues is all of the pieces just when each of them is
shorter than 2^16 octets, or nothing is queued because what the lengths leave modulo 2^16 is too
much. -/
theorem imsgComposev_all_or_nothing_iff (self : UInt32) (junk : UInt16) (a : Args)
    (iov : List (List UInt8)) :
    (∀ b, imsgComposev self junk a iov = some b → b.buf.drop headerSize = iov.flatten ∧
      (readHdr b.buf).len.toNat = headerSize + (iov.map length).sum) ↔
      (∀ base ∈ iov, base.length < 2 ^ 16) ∨
      maxImsgsize < headerSize + (iov.map fun base => base.length % 2 ^ 16).sum := by
  have hspec := imsgComposev_spec self junk a iov
  rw [← length_kept, ← not_le, ← length_flatten]
  by_cases hmax : headerSize + (kept iov).length ≤ maxImsgsize
  · rw [if_pos hmax] at hspec
    obtain ⟨b, hb, hbuf⟩ := hspec
    have hdata : b.buf.drop headerSize = kept iov := by
      rw [hbuf]
      exact drop_left' (Hdr.length_bytes _)
    have hlen : (readHdr b.buf).len.toNat = headerSize + (kept iov).length := by
      rw [hbuf, wire, readHdr_append]
      exact (wireHdr_len (Nat.le_sub_of_add_le' hmax)).trans (length_wire _ _)
    simp only [hb, some.injEq, forall_eq', hdata, hlen, not_true_eq_false, or_false, hmax]
    constructor
    · rintro ⟨hkept, -⟩ base hbase
      by_contra hlong
      have hlt : (iov.map fun base => base.length % 2 ^ 16).sum < (iov.map length).sum :=
        sum_lt_sum _ _ (fun base _ => mod_le _ _)
          ⟨base, hbase, (mod_lt _ (by decide)).trans_le (not_lt.1 hlong)⟩
      rw [← length_kept, hkept, length_flatten] at hlt
      exact hlt.false
    · intro hshort
      have hkept : kept iov = iov.flatten := by
        rw [kept, flatMap, map_congr_left (g := id) fun base hbase => by
          rw [mod_eq_of_lt (hshort base hbase), take_length, id], List.map_id]
      rw [hkept]
      exact ⟨rfl, rfl⟩
  · rw [if_neg hmax] at hspec
    simp [hspec, hmax]

end Wire

/-! ### Descriptors on the stream -/

section Sending

variable {fd : Option Fd} {as bs : List UInt8} {b : Ibuf} {queue post : List Ibuf} {n : ℕ}

lemma withFd_none (bs : List UInt8) : withFd none bs = bs.map fun b => (b, none) := by
  cases bs <;> rfl

lemma withFd_append (h : as ≠ []) : withFd fd (as ++ bs) = withFd fd as ++ bs.map fun b => (b, none) := by
  cases as with
  | nil => exact absurd rfl h
  | cons a as => simp [withFd]

lemma take_withFd (n : ℕ) : (withFd fd bs).take n = withFd fd (bs.take n) := by
  cases bs with
  | nil => simp [withFd]
  | cons b bs =>
    cases n with
    | zero => rfl
    | succ n => simp [withFd, map_take]

lemma drop_withFd (hn : 0 < n) : (withFd fd bs).drop n = (bs.drop n).map fun b => (b, none) := by
  obtain ⟨n, rfl⟩ := exists_eq_add_one.2 hn
  cases bs with
  | nil => simp [withFd]
  | cons b bs => simp [withFd, map_drop]

@[simp] lemma map_fst_withFd : (withFd fd bs).map fst = bs := by
  cases bs with
  | nil => rfl
  | cons b bs => simp [withFd, Function.comp_def]

lemma filterMap_snd_withFd (h : bs ≠ []) : (withFd fd bs).filterMap snd = fd.toList := by
  cases bs with
  | nil => exact absurd rfl h
  | cons b bs => cases fd <;> simp [withFd]

@[simp] lemma length_withFd : (withFd fd bs).length = bs.length := by
  rw [← length_map fst, map_fst_withFd]

def queueOctets (queue : List Ibuf) : List Octet := queue.flatMap fun b => withFd b.fd b.left

lemma batch_spec {i : ℕ} (hi : 0 < i) (queue : List Ibuf) :
    ∃ post, queue = batch i queue ++ post ∧ ∀ b ∈ batch i queue, b.fd = none := by
  induction queue generalizing i with
  | nil => exact ⟨[], rfl, by simp [batch]⟩
  | cons b bs ih =>
    rw [batch]
    split_ifs with hmax hfd
    · exact ⟨b :: bs, rfl, by simp⟩
    · exact ⟨b :: bs, rfl, by simp⟩
    · obtain ⟨post, hpost, hnone⟩ := ih (succ_pos i)
      exact ⟨post, by rw [cons_append, ← hpost], forall_mem_cons.2 ⟨by simpa [hi] using hfd, hnone⟩⟩

lemma batch_cons (b : Ibuf) (bs : List Ibuf) : batch 0 (b :: bs) = b :: batch 1 bs := by
  rw [batch, if_neg (by decide), if_neg (by simp)]

variable {bs : List Ibuf}

lemma batchFd_cons (h : ∀ c ∈ bs, c.fd = none) : batchFd (b :: bs) = b.fd := by
  have hfold : ∀ fd, bs.foldl (fun fd b => if b.fd.isSome then b.fd else fd) fd = fd := by
    intro fd
    induction bs with
    | nil => rfl
    | cons c bs ih =>
      rw [foldl_cons, h c mem_cons_self]
      exact ih (forall_mem_cons.1 h).2
  rw [batchFd, foldl_cons, hfold]
  cases b.fd <;> rfl

lemma queueOctets_none (h : ∀ c ∈ bs, c.fd = none) :
    queueOctets bs = (bs.flatMap Ibuf.left).map fun b => (b, none) := by
  induction bs with
  | nil => rfl
  | cons c bs ih =>
    have hrest := ih (forall_mem_cons.1 h).2
    rw [queueOctets] at hrest ⊢
    rw [flatMap_cons, flatMap_cons, h c mem_cons_self, withFd_none, hrest, map_append]

def Pending (queue : List Ibuf) : Prop := ∀ b ∈ queue, b.rpos < b.buf.length

lemma length_left (b : Ibuf) : b.left.length = b.buf.length - b.rpos := length_drop

lemma msgbufDrain_spec (hfd : ∀ c ∈ bs, c.fd = none) (hp : Pending (bs ++ post))
    (hn : n ≤ (bs.flatMap Ibuf.left).length) : queueOctets (msgbufDrain (bs ++ post) n) =
        (((bs.flatMap Ibuf.left).drop n).map fun b => (b, none)) ++ queueOctets post ∧
      Pending (msgbufDrain (bs ++ post) n) := by
  induction bs generalizing n with
  | nil =>
    obtain rfl : n = 0 := by simpa using hn
    have hzero : msgbufDrain ([] ++ post) 0 = post := by cases post <;> simp [msgbufDrain]
    rw [hzero]
    exact ⟨by simp, hp⟩
  | cons b bs ih =>
    have hbfd := hfd b mem_cons_self
    have hrest : Pending (bs ++ post) := fun c hc => hp c (by simpa using Or.inr hc)
    rw [flatMap_cons, length_append, length_left] at hn
    rw [cons_append, msgbufDrain, flatMap_cons]
    split_ifs with h0 hall
    · subst h0
      refine ⟨?_, hp⟩
      have hsplit : queueOctets (b :: (bs ++ post)) = queueOctets (b :: bs) ++ queueOctets post := by
        simp [queueOctets]
      rw [hsplit, queueOctets_none hfd, drop_zero, flatMap_cons]
    · obtain ⟨hoct, hpend⟩ := ih (forall_mem_cons.1 hfd).2 hrest
        (n := n - (b.buf.length - b.rpos)) (by omega)
      refine ⟨?_, hpend⟩
      have hnil : b.left.drop n = [] := drop_eq_nil_of_le (by rw [length_left]; omega)
      rw [hoct, drop_append, hnil, nil_append, length_left]
    · refine ⟨?_, ?_⟩
      · have hle : n ≤ b.left.length := by
          rw [length_left]
          omega
        have hleft : Ibuf.left { b with rpos := b.rpos + n } = b.left.drop n := by
          rw [Ibuf.left, Ibuf.left, drop_drop]
        have hsplit : queueOctets ({ b with rpos := b.rpos + n } :: (bs ++ post)) =
            withFd b.fd (Ibuf.left { b with rpos := b.rpos + n }) ++
            (queueOctets bs ++ queueOctets post) := by
          simp [queueOctets]
        rw [hsplit, hleft, hbfd, withFd_none, queueOctets_none (forall_mem_cons.1 hfd).2,
          drop_append_of_le_length hle, map_append, append_assoc]
      · refine forall_mem_cons.2 ⟨?_, hrest⟩
        dsimp only
        omega

/-- **`msgbuf_write`**: what was sent and what is left are what was to be sent, with the descriptors
in their places. -/
theorem msgbufWrite_spec (hp : Pending queue) (hpos : 0 < n)
    (hn : n ≤ ((batch 0 queue).flatMap Ibuf.left).length) :
    queueOctets queue = (msgbufWrite queue n).1 ++ queueOctets (msgbufWrite queue n).2 ∧
      Pending (msgbufWrite queue n).2 := by
  cases queue with
  | nil => exact absurd hn (not_le.2 hpos)
  | cons b bs =>
    obtain ⟨post, hpost, hnone⟩ := batch_spec (i := 1) (by decide) bs
    set given := batch 1 bs with hgiven
    have hb := hp b mem_cons_self
    have hne : b.left ≠ [] := by
      rw [← length_pos_iff, length_left]
      omega
    have hwhole : queueOctets (b :: bs) =
        withFd b.fd ((b :: given).flatMap Ibuf.left) ++ queueOctets post := by
      have hsplit : queueOctets (b :: bs) = withFd b.fd b.left ++
          (queueOctets given ++ queueOctets post) := by
        rw [hpost]
        simp [queueOctets]
      rw [hsplit, queueOctets_none hnone, flatMap_cons, withFd_append hne, append_assoc]
    have hcleared : (({ b with fd := none } : Ibuf) :: given).flatMap Ibuf.left =
      (b :: given).flatMap Ibuf.left := rfl
    have hfd : ∀ c ∈ ({ b with fd := none } : Ibuf) :: given, c.fd = none :=
      forall_mem_cons.2 ⟨rfl, hnone⟩
    have hpend : Pending (({ b with fd := none } : Ibuf) :: given ++ post) := by
      rw [cons_append, ← hpost]
      exact forall_mem_cons.2 ⟨hb, (forall_mem_cons.1 hp).2⟩
    have hdrain := msgbufDrain_spec hfd hpend (hcleared ▸ hn)
    rw [cons_append, ← hpost, hcleared] at hdrain
    simp only [msgbufWrite, batch_cons, ← hgiven, closeFd, batchFd_cons hnone]
    refine ⟨?_, hdrain.2⟩
    rw [hwhole, hdrain.1, ← take_withFd, ← drop_withFd hpos, ← append_assoc, take_append_drop]

end Sending

/-! ### Taking messages off the buffer -/

section Receiving

variable {self : UInt32} {a : Args} {rest : List Args} {held more : List Octet} {r : Receiver}

def onStream (self : UInt32) (a : Args) : List Octet := withFd a.fd (wire self a)

def Fits (a : Args) : Prop := a.data.length ≤ maxImsgsize - headerSize

lemma wire_ne_nil (self : UInt32) (a : Args) : wire self a ≠ [] := by
  rw [← length_pos_iff, length_wire, headerSize]
  omega

/-- The receiver has these octets in its buffer, and the descriptors that came along with them. -/
structure Holds (r : Receiver) (held : List Octet) : Prop where
  buf : r.buf = held.map Prod.fst
  fds : r.fds = held.filterMap Prod.snd

lemma Holds.length (h : Holds r held) : r.buf.length = held.length := by rw [h.buf, length_map]

lemma readHdr_of_wire {more : List UInt8} {bs : List UInt8} (h : wire self a ++ more = bs) :
    readHdr bs = wireHdr self a := by
  rw [← h, wire, append_assoc, readHdr_append]

lemma imsgGet_incomplete (hfits : Fits a) (h : Holds r held) {tail : List Octet}
    (hsplit : onStream self a = held ++ tail) (htail : tail ≠ []) : imsgGet r = some none := by
  have hwire : wire self a = r.buf ++ tail.map fst := by
    rw [← @map_fst_withFd a.fd (wire self a), h.buf, ← map_append, ← hsplit, onStream]
  have hlen : r.buf.length < (wire self a).length := by
    have hpos := length_pos_iff.2 htail
    rw [hwire, length_append, length_map]
    omega
  rw [imsgGet]
  by_cases hshort : headerSize > r.buf.length
  · rw [if_pos hshort]
  rw [if_neg hshort]
  -- the header is there, and says that the message is longer than what there is
  have hhdr : readHdr r.buf = wireHdr self a := by
    have hfirst : r.buf = (wireHdr self a).bytes ++ a.data.take (r.buf.length - headerSize) := by
      have htake : r.buf = (wire self a).take r.buf.length := by rw [hwire, take_left]
      rw [wire, take_append, take_of_length_le (by rw [Hdr.length_bytes]; omega)] at htake
      exact htake
    rw [hfirst, readHdr_append]
  have hmax : (wire self a).length ≤ maxImsgsize := by
    rw [length_wire]
    simp only [Fits, headerSize, maxImsgsize] at hfits ⊢
    omega
  simp only [hhdr, wireHdr_len hfits]
  rw [if_neg (by rw [length_wire] at *; omega), if_pos hlen]

lemma imsgGet_complete (hfits : Fits a) (h : Holds r (onStream self a ++ held)) :
    ∃ r', imsgGet r = some (some (a.delivered self, r')) ∧ Holds r' held := by
  have hbuf : r.buf = wire self a ++ held.map fst := by
    rw [h.buf, map_append, onStream, map_fst_withFd]
  have hfds : r.fds = a.fd.toList ++ held.filterMap snd := by
    rw [h.fds, filterMap_append, onStream, filterMap_snd_withFd (wire_ne_nil self a)]
  have hlen : (wireHdr self a).len.toNat = _ := wireHdr_len hfits
  have hwire := length_wire self a
  have hav : (wire self a).length ≤ r.buf.length := by
    rw [hbuf, length_append]
    omega
  have hmax : (wire self a).length ≤ maxImsgsize := by
    rw [length_wire]
    simp only [Fits, headerSize, maxImsgsize] at hfits ⊢
    omega
  have hdata : (r.buf.drop headerSize).take ((wire self a).length - headerSize) = a.data := by
    rw [hbuf, wire, append_assoc, drop_left' (Hdr.length_bytes _), length_append, Hdr.length_bytes,
      Nat.add_sub_cancel_left, take_left]
  have hdrop : r.buf.drop (wire self a).length = held.map fst := by
    rw [hbuf, drop_left]
  refine ⟨{ buf := held.map fst, fds := held.filterMap snd }, ?_, ⟨rfl, rfl⟩⟩
  rw [imsgGet]
  simp only [readHdr_of_wire hbuf.symm, hlen, hdata, hdrop, hfds]
  rw [if_neg (by omega), if_neg (by omega), if_neg (by omega)]
  -- the flag tells whether the first descriptor is this message's
  cases hfd : a.fd <;> simp [Args.delivered, Args.imsg, wireHdr, hfd]

/-- **`imsg_get` until it returns 0**: the messages that are complete are returned in order, and the
next one is not complete. -/
theorem getAll_spec (hfits : ∀ a ∈ rest, Fits a) (h : Holds r held)
    (hstream : rest.flatMap (onStream self) = held ++ more) {fuel : ℕ} (hfuel : r.buf.length < fuel) :
    ∃ done rest' held' r',
    rest = done ++ rest' ∧ getAll fuel r = some (done.map (Args.delivered self), r') ∧
      Holds r' held' ∧ rest'.flatMap (onStream self) = held' ++ more ∧
      ∀ a rest'', rest' = a :: rest'' → held'.length < (wire self a).length := by
  induction rest generalizing held r fuel with
  | nil =>
    obtain _ | fuel := fuel
    · omega
    obtain ⟨rfl, rfl⟩ := append_eq_nil_iff.1 hstream.symm
    refine ⟨[], [], [], r, rfl, ?_, h, rfl, by simp⟩
    have hget : imsgGet r = some none := by
      rw [imsgGet, if_pos (by rw [h.length]; decide)]
    rw [getAll, hget]
    rfl
  | cons a rest ih =>
    obtain _ | fuel := fuel
    · omega
    have ha := hfits a mem_cons_self
    by_cases hcomplete : ∃ held', held = onStream self a ++ held'
    · obtain ⟨held', rfl⟩ := hcomplete
      obtain ⟨r1, hget, hholds⟩ := imsgGet_complete ha h
      rw [append_assoc] at hstream
      have hlen : r1.buf.length < fuel := by
        have hpos := length_pos_iff.2 (wire_ne_nil self a)
        have hall := h.length
        rw [length_append, onStream, length_withFd] at hall
        rw [hholds.length]
        omega
      obtain ⟨done, rest', held'', r', hrest, hgets, hrec⟩ := ih (forall_mem_cons.1 hfits).2 hholds
        (append_cancel_left hstream) hlen
      refine ⟨a :: done, rest', held'', r', by rw [hrest, cons_append], ?_, hrec⟩
      rw [getAll, hget]
      dsimp only
      rw [hgets]
      rfl
    · -- what is in the buffer is a part of the message only
      obtain ⟨tail, hsplit, htail⟩ : ∃ tail, onStream self a = held ++ tail ∧ tail ≠ [] := by
        rcases append_eq_append_iff.1 hstream with ⟨c, hc, -⟩ | ⟨c, hc, -⟩
        · exact absurd ⟨c, hc⟩ hcomplete
        · refine ⟨c, hc, ?_⟩
          rintro rfl
          exact hcomplete ⟨[], by rw [append_nil, hc, append_nil]⟩
      refine ⟨[], a :: rest, held, r, rfl, ?_, h, by rw [flatMap_cons]; exact hstream, ?_⟩
      · rw [getAll, imsgGet_incomplete ha h hsplit htail]
        rfl
      · intro b rest'' hb
        obtain ⟨rfl, -⟩ := cons.inj hb
        have hpos := length_pos_iff.2 htail
        have hlen := congrArg length hsplit
        rw [onStream, length_withFd, length_append] at hlen
        omega

end Receiving

/-! ### Every interleaving -/

section System

variable {self : UInt32} {s s' : State}

/-- What was composed is what was returned and what is on its way; the octets of the latter are in
the receiver's buffer, on the stream and in the queue, and the buffer has no complete message. -/
structure Inv (own : UInt32) (s : State) (rest : List Args) (held : List Octet) : Prop where
  split : ∃ done, s.composed = done ++ rest ∧ s.returned = done.map (Args.delivered own)
  octets : rest.flatMap (onStream own) = held ++ (s.stream ++ queueOctets s.queue)
  holds : Holds s.receiver held
  pending : Pending s.queue
  fits : ∀ a ∈ rest, Fits a
  incomplete : ∀ a rest', rest = a :: rest' → held.length < (wire own a).length

lemma init_inv (self : UInt32) : Inv self init [] [] :=
  ⟨⟨[], rfl, rfl⟩, rfl, ⟨rfl, rfl⟩, by simp [Pending, init], by simp, by simp⟩

variable {held : List Octet} {rest : List Args}

lemma Inv.length_lt (h : Inv self s rest held) : s.receiver.buf.length < maxImsgsize := by
  rw [h.holds.length]
  cases hrest : rest with
  | nil =>
    have hoct := h.octets
    rw [hrest] at hoct
    rw [(append_eq_nil_iff.1 hoct.symm).1]
    decide
  | cons a rest' =>
    have hlt := h.incomplete a rest' hrest
    have hfits := h.fits a (hrest ▸ mem_cons_self)
    rw [length_wire] at hlt
    simp only [Fits, headerSize, maxImsgsize] at hfits hlt ⊢
    omega

/-- **One event**: no call fails, and the invariant is kept. -/
theorem step_ok (h : Inv self s rest held) (e : Event) (he : Enabled s e) :
    ∃ s' rest' held', step self s e = some s' ∧ Inv self s' rest' held' := by
  obtain ⟨done, hcomposed, hreturned⟩ := h.split
  cases e with
  | compose junk a =>
    obtain ⟨b, hb, hbuf, hrpos, hfd⟩ := imsgCompose_spec junk he
    have hleft : b.left = wire self a := by rw [Ibuf.left, hbuf, hrpos, drop_zero]
    refine ⟨{ s with queue := s.queue ++ [b], composed := s.composed ++ [a] }, rest ++ [a], held,
      by
        rw [step, hb, map_some], ⟨done, by rw [hcomposed, append_assoc], hreturned⟩, ?_, h.holds,
        ?_, ?_, ?_⟩
    · have hqueue : queueOctets (s.queue ++ [b]) = queueOctets s.queue ++ onStream self a := by
        simp [queueOctets, hleft, hfd, onStream]
      rw [flatMap_append, h.octets, hqueue]
      simp
    · intro c hc
      rcases mem_append.1 hc with hc | hc
      · exact h.pending c hc
      · rw [mem_singleton.1 hc, hrpos, hbuf]
        exact length_pos_iff.2 (wire_ne_nil self a)
    · intro c hc
      rcases mem_append.1 hc with hc | hc
      · exact h.fits c hc
      · exact mem_singleton.1 hc ▸ he
    · intro c rest' hc
      cases hrest : rest with
      | nil =>
        have hoct := h.octets
        rw [hrest] at hoct
        rw [(append_eq_nil_iff.1 hoct.symm).1]
        exact length_pos_iff.2 (wire_ne_nil self c)
      | cons d rest'' =>
        rw [hrest] at hc
        obtain ⟨rfl, -⟩ := cons.inj hc
        exact h.incomplete d rest'' hrest
  | write n =>
    obtain ⟨hoct, hpend⟩ := msgbufWrite_spec h.pending he.1 he.2
    refine ⟨_, rest, held, rfl, ⟨done, hcomposed, hreturned⟩, ?_, h.holds, hpend, h.fits, h.incomplete⟩
    rw [h.octets, hoct, append_assoc]
  | read n =>
    obtain ⟨-, -, -, hone⟩ := he
    have hread : Holds (imsgRead s.receiver (s.stream.take n)) (held ++ s.stream.take n) := by
      constructor
      · rw [imsgRead, map_append, h.holds.buf]
      · rw [imsgRead, filterMap_append, h.holds.fds, take_of_length_le hone]
    have hstream : rest.flatMap (onStream self) =
        (held ++ s.stream.take n) ++ (s.stream.drop n ++ queueOctets s.queue) := by
      rw [h.octets, append_assoc, ← append_assoc (s.stream.take n), take_append_drop]
    obtain ⟨got, rest', held', r', hrest, hget, hholds, hoct, hinc⟩ :=
      getAll_spec h.fits hread hstream (lt_succ_self _)
    refine ⟨{ s with
        stream := s.stream.drop n, receiver := r',
        returned := s.returned ++ got.map (Args.delivered self) },
      rest', held', by
        rw [step, hget, map_some], ⟨done ++ got, ?_, ?_⟩, hoct, hholds, h.pending, ?_, hinc⟩
    · rw [hcomposed, hrest, append_assoc]
    · rw [hreturned, map_append]
    · exact fun a ha => h.fits a (hrest ▸ mem_append_right _ ha)

lemma Reach.inv (h : Reach self s) : ∃ rest held, Inv self s rest held := by
  induction h with
  | init => exact ⟨[], [], init_inv self⟩
  | @step s s' e _ he hs ih =>
    obtain ⟨rest, held, hinv⟩ := ih
    obtain ⟨s1, rest', held', hstep, hinv'⟩ := step_ok hinv e he
    rw [hs] at hstep
    cases hstep
    exact ⟨rest', held', hinv'⟩

/-- **imsg framing is transparent.**  After any calls on both sides, with whatever parts `sendmsg`
and `recvmsg` take, the messages that were returned are the first ones of those composed, a process
id of 0 being the sender's; they are all of them when the queue and the stream are empty.  The
buffer has room for a message, what `recvmsg` adds does not overrun it, and the next call does not
fail. -/
theorem imsg_transparent (h : Reach self s) :
    (∃ rest, s.composed.map (Args.delivered self) = s.returned ++ rest) ∧
    (s.queue = [] → s.stream = [] → s.returned = s.composed.map (Args.delivered self)) ∧
    s.receiver.buf.length + maxImsgsize ≤ ibufReadSize ∧
    (∀ n, Enabled s (.read n) → (imsgRead s.receiver (s.stream.take n)).buf.length ≤ ibufReadSize) ∧
    ∀ e, Enabled s e → ∃ s', step self s e = some s' := by
  obtain ⟨rest, held, hinv⟩ := h.inv
  obtain ⟨done, hcomposed, hreturned⟩ := hinv.split
  have hlt := hinv.length_lt
  refine ⟨⟨rest.map (Args.delivered self), ?_⟩, fun hqueue hstream => ?_, ?_, fun n hn => ?_,
    fun e he => ?_⟩
  · rw [hcomposed, hreturned, map_append]
  · -- with nothing on the way the buffer would have a complete message
    have hoct := hinv.octets
    rw [hqueue, hstream] at hoct
    cases hrest : rest with
    | nil => rw [hcomposed, hreturned, hrest, append_nil]
    | cons a rest' =>
      have hinc := hinv.incomplete a rest' hrest
      have hlen := congrArg length hoct
      rw [hrest, flatMap_cons, onStream] at hlen
      simp [queueOctets] at hlen
      omega
  · simp only [maxImsgsize, ibufReadSize] at hlt ⊢
    omega
  · obtain ⟨-, -, hroom, -⟩ := hn
    simp only [maxImsgsize, ibufReadSize] at hlt hroom ⊢
    rw [imsgRead, length_append, length_map, length_take]
    omega
  · obtain ⟨s', -, -, hs', -⟩ := step_ok hinv e he
    exact ⟨s', hs'⟩

end System

/-- A message without payload, composed with process id 0. -/
def ping : Args := { type := 1, peerid := 2, pid := 0, fd := none, data := [] }

/-- Two pieces are queued as one message. -/
theorem imsgComposev_two :
    ∃ b, imsgComposev 7 0 ping [[1, 2], [3]] = some b ∧ b.buf.drop headerSize = [1, 2, 3] ∧
    (readHdr b.buf).len.toNat = 19 :=
  ⟨_, rfl, (imsgComposev_all_or_nothing_iff 7 0 ping [[1, 2], [3]]).2 (.inl (by decide)) _ rfl⟩

/-- A piece of 2^16 octets is queued as a message without any. -/
theorem imsgComposev_drops : ∃ b, imsgComposev 7 0 ping [replicate 65536 0] = some b ∧
    b.buf.drop headerSize ≠ [replicate 65536 0].flatten := by
  generalize hn : 65536 = n
  have hkept : (kept [replicate n 0]).length = 0 := by
    rw [length_kept, map_singleton, length_replicate, ← hn]
    rfl
  have hspec := imsgComposev_spec 7 0 ping [replicate n 0]
  rw [hkept] at hspec
  obtain ⟨b, hb, hbuf⟩ := hspec
  refine ⟨b, hb, fun hdata => ?_⟩
  have hlen := congrArg length hdata
  rw [hbuf, length_drop, length_wire, flatten_singleton, length_replicate, hkept] at hlen
  omega

def pinged : State where
  queue := []
  stream := []
  receiver := { buf := [], fds := [] }
  composed := [ping]
  returned := [{ type := 1, peerid := 2, pid := 7, fd := none, data := [] }]

lemma reach_pinged : Reach 7 pinged := by
  have hcompose : step 7 init (.compose 0 ping) = some
      { init with
        queue := [{ buf := wire 7 ping, size := 16, max := maxImsgsize, rpos := 0, fd := none }],
          composed := [ping] } := by
    decide +kernel
  refine .step (e := .read 16) (.step (e := .write 16) (.step .init ?_ hcompose) ?_ rfl) ?_ ?_
  · exact zero_le _
  · change _ ∧ _
    decide +kernel
  · change _ ∧ _ ∧ _ ∧ _
    decide +kernel
  · decide +kernel

/-- The message that is received is not the one composed: its process id is the sender's, not 0. -/
theorem imsg_pid_replaced :
    ∃ s, Reach 7 s ∧ s.queue = [] ∧ s.stream = [] ∧ s.returned ≠ s.composed.map Args.imsg :=
  ⟨pinged, reach_pinged, rfl, rfl, by decide +kernel⟩

instance (s : State) : (e : Event) → Decidable (Enabled s e)
  | .compose _ a => inferInstanceAs (Decidable (a.data.length ≤ maxImsgsize - headerSize))
  | .write n => inferInstanceAs (Decidable (0 < n ∧ n ≤ ((batch 0 s.queue).flatMap Ibuf.left).length))
  | .read n =>
    inferInstanceAs
    (Decidable (0 < n ∧ n ≤ s.stream.length ∧ n ≤ ibufReadSize - s.receiver.buf.length ∧
      ((s.stream.take n).filterMap Prod.snd).length ≤ 1))

/-- The calls one after the other, as long as they may happen. -/
def runEvents (self : UInt32) : List Event → State → Option State
  | [], s => some s
  | e :: es, s => if Enabled s e then (step self s e).bind (runEvents self es) else none

lemma reach_of_runEvents {self : UInt32} {es : List Event} {s s' : State} (h : Reach self s)
    (hrun : runEvents self es s = some s') : Reach self s' := by
  induction es generalizing s with
  | nil =>
    cases hrun
    exact h
  | cons e es ih =>
    rw [runEvents] at hrun
    split_ifs at hrun with he
    obtain ⟨s₁, hs₁, hrest⟩ := bind_eq_some_iff.1 hrun
    exact ih (.step h he hs₁) hrest

/-- A message with a payload and a descriptor, from another process. -/
def parcel : Args := { type := 3, peerid := 4, pid := 9, fd := some 5, data := [1, 2, 3] }

/-- The parcel and the empty message are sent in three parts, the first of which ends in the header
of the parcel, and received in three others. -/
def parcelEvents : List Event :=
  [.compose 0 parcel, .compose 0 ping, .write 10, .write 12, .read 5, .write 13, .read 20, .read 10]

theorem imsg_transparent_parcel :
    ∃ s, runEvents 7 parcelEvents init = some s ∧ s.composed = [parcel, ping] ∧
    s.returned = [parcel.delivered 7, ping.delivered 7] := by
  obtain ⟨s, hrun⟩ :=
    isSome_iff_exists.1 (show (runEvents 7 parcelEvents init).isSome = true by decide +kernel)
  have hend : (runEvents 7 parcelEvents init).all (fun s => s.queue = [] ∧ s.stream = [] ∧
    s.composed = [parcel, ping]) =
      true := by decide +kernel
  rw [hrun, all_some, decide_eq_true_eq] at hend
  obtain ⟨hqueue, hstream, hcomposed⟩ := hend
  refine ⟨s, hrun, hcomposed, ?_⟩
  rw [(imsg_transparent (reach_of_runEvents .init hrun)).2.1 hqueue hstream, hcomposed]
  rfl

end Musl.Bsd.ImsgBuf
