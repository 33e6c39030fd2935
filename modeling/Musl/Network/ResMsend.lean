import Musl.Lib.DnsName

/-!
# Queries in parallel

`__res_msend_rc` sends all queries to all nameservers and collects the answers.  Every packet is
received into the slot `next`, the first one without an answer, before it is known which query it
belongs to.  A query whose answer was cut off goes on over TCP, where the answer comes in pieces,
with its length in front.

What the kernel does is an input: which packets are received, how much of the stream a `recvmsg`
returns, when it fails. The state has two fields that the code does not have: the packets received
so far, and the bytes of every stream.
-/

namespace Musl.Network

open Musl.Lib.DnsName List Function Nat

/-! ### The code -/

/-- `struct iovec`: `buf` tells which array, `alen_buf[i]` or `answers[i]`. -/
structure Iov where
  buf : Bool
  base : ℕ
  len : ℕ
  deriving DecidableEq, Repr

def stepMh : List Iov → ℕ → List Iov
  | [], _ => []
  | v :: vs, n =>
    if v.len ≤ n then stepMh vs (n - v.len)
    else { v with base := v.base + n, len := v.len - n } :: vs

/-- What `recvmsg` stores. -/
def scatter : List Iov → List UInt8 → (Bool → Message) → Bool → Message
  | [], _, mem => mem
  | v :: vs, bs, mem =>
    scatter vs (bs.drop v.len) (Function.update mem v.buf (write (mem v.buf) v.base (bs.take v.len)))

/-- An open connection: `qpos[i]` and `apos[i]`. -/
structure TcpConn where
  qpos : ℕ
  apos : ℕ
  deriving DecidableEq, Repr

/-- A query's part of the state; `tcp` is missing if `pfd[i].fd` is -1, and `stream` if it was never
TCP's turn. -/
structure Slot where
  alen : ℤ
  answer : Message
  alenBuf : Message
  tcp : Option TcpConn
  stream : Option (List UInt8)

/-- A packet with the address it came from; `startTcp` is what `start_tcp` would return for its query. -/
structure Packet (Addr : Type) where
  data : List UInt8
  sender : Addr
  startTcp : ℤ

/-- The arguments: queries, nameservers, the size of an answer's array, and the times. -/
structure MsendConf (Addr : Type) where
  queries : List (List UInt8)
  ns : List Addr
  asize : ℕ
  timeout : ℤ
  retryInterval : ℤ

/-- The variables of the loop; `sent` are the packets that were sent, by query. -/
structure Msend (Addr : Type) where
  slots : ℕ → Slot
  next : ℕ
  servfailRetry : ℕ
  t1 : ℤ
  sent : List (ℕ × Addr)
  received : List (Packet Addr)

/-- The byte `k` of query `i`. -/
def MsendConf.queryByte {Addr : Type} (cfg : MsendConf Addr) (i k : ℕ) : UInt8 :=
  (cfg.queries.getD i []).getD k 0

def MsendConf.nqueries {Addr : Type} (cfg : MsendConf Addr) : ℕ := cfg.queries.length

section Code

variable {Addr : Type} [DecidableEq Addr] (cfg : MsendConf Addr)

def Msend.upd (s : Msend Addr) (i : ℕ) (f : Slot → Slot) : Msend Addr :=
  { s with slots := Function.update s.slots i (f (s.slots i)) }

/-- The loop that looks for the query of an answer, from `i` on, with `n` queries to go. -/
def findQuery (buf : Message) : ℕ → ℕ → ℕ
  | 0, i => i
  | n + 1, i =>
    if buf 0 ≠ cfg.queryByte i 0 ∨ buf 1 ≠ cfg.queryByte i 1 then findQuery buf n (i + 1) else i

/-- `for (; next<nqueries && alens[next]; next++);`, with `n` slots to go. -/
def skipFull (slots : ℕ → Slot) : ℕ → ℕ → ℕ
  | 0, i => i
  | n + 1, i => if (slots i).alen ≠ 0 then skipFull slots n (i + 1) else i

/-- The answer in slot `next` is stored for query `i`. -/
def storeUdp (p : Packet Addr) (i : ℕ) (s : Msend Addr) : Msend Addr :=
  let rlen := min p.data.length cfg.asize
  let s := s.upd i fun slot => { slot with alen := rlen }
  if i = s.next then { s with next := skipFull s.slots (cfg.nqueries - s.next) s.next }
  else s.upd i fun slot =>
    { slot with answer := write slot.answer 0 (bytes (s.slots s.next).answer 0 rlen) }

/-- The answer is accepted; one that was cut off is asked for again over TCP. -/
def acceptUdp (p : Packet Addr) (i : ℕ) (s : Msend Addr) : Msend Addr :=
  let s := storeUdp cfg p i s
  if (s.slots i).answer 2 &&& 2 ≠ 0 ∨ cfg.asize < p.data.length then
    s.upd i fun slot =>
      { slot with
        alen := -1
        tcp := if 0 ≤ p.startTcp then some ⟨p.startTcp.toNat, 0⟩ else none
        stream := some [] }
  else s

def udpStep (p : Packet Addr) (s : Msend Addr) : Msend Addr :=
  let s := { s with received := s.received ++ [p] }
  let s := s.upd s.next fun slot => { slot with answer := write slot.answer 0 (p.data.take cfg.asize) }
  if min p.data.length cfg.asize < 4 then s
  else if p.sender ∉ cfg.ns then s
  else
    let buf := (s.slots s.next).answer
    let i := findQuery cfg buf (cfg.nqueries - s.next) s.next
    if i = cfg.nqueries then s
    else if (s.slots i).alen ≠ 0 then s
    else if buf 3 &&& 15 = 0 ∨ buf 3 &&& 15 = 3 then acceptUdp cfg p i s
    else if buf 3 &&& 15 = 2 ∧ s.servfailRetry ≠ 0 then
      { s with servfailRetry := s.servfailRetry - 1, sent := s.sent ++ [(i, p.sender)] }
    else s

/-- `while (next < nqueries)`, up to the `recvmsg` that fails. -/
def udpLoop : List (Packet Addr) → Msend Addr → Msend Addr
  | [], s => s
  | p :: ps, s => if s.next < cfg.nqueries then udpLoop ps (udpStep cfg p s) else s

/-- The rest of a query is sent: `r` bytes of it.  The second component tells of a `goto out`. -/
def tcpOut (i : ℕ) (r : ℤ) (s : Msend Addr) : Msend Addr × Bool :=
  match (s.slots i).tcp with
  | none => (s, false)
  | some c =>
    if r < 0 then (s, true)
    else (s.upd i fun slot => { slot with tcp := some { c with qpos := c.qpos + r.toNat } }, false)

/-- The arrays of a slot, for `recvmsg`. -/
def Slot.mem (slot : Slot) : Bool → Message
  | false => slot.alenBuf
  | true => slot.answer

/-- The `msg_iov` of an answer. -/
def answerIov (asize : ℕ) : List Iov := [⟨false, 0, 2⟩, ⟨true, 0, asize⟩]

def Slot.receive (asize : ℕ) (chunk : List UInt8) (c : TcpConn) (slot : Slot) : Slot :=
  let mem := scatter (stepMh (answerIov asize) c.apos) chunk slot.mem
  { slot with
    alenBuf := mem false
    answer := mem true
    tcp := some { c with apos := c.apos + chunk.length }
    stream := slot.stream.map (· ++ chunk) }

/-- A piece of a stream is received, as much of `chunk` as there is room for; none is left on an
error or the end of the stream. -/
def tcpIn (i : ℕ) (chunk : List UInt8) (s : Msend Addr) : Msend Addr × Bool :=
  match (s.slots i).tcp with
  | none => (s, false)
  | some c =>
    let chunk := chunk.take (((stepMh (answerIov cfg.asize) c.apos).map Iov.len).sum)
    if chunk = [] then (s, true)
    else
      let s := s.upd i (Slot.receive cfg.asize chunk c)
      let slot := s.slots i
      let apos := c.apos + chunk.length
      let alen := (slot.alenBuf 0).toNat * 256 + (slot.alenBuf 1).toNat
      if apos < 2 then (s, false)
      else if alen < 13 then (s, true)
      else if apos < alen + 2 ∧ apos < cfg.asize + 2 then (s, false)
      else if slot.answer 3 &&& 15 ≠ 0 ∧ slot.answer 3 &&& 15 ≠ 3 then (s, true)
      else (s.upd i fun slot => { slot with alen := alen, tcp := none }, false)

/-- A loop over the slots with an event, which `goto out` may end. -/
def slotLoop {α : Type} (events : ℕ → Option α) (f : ℕ → α → Msend Addr → Msend Addr × Bool) :
    List ℕ → Msend Addr → Msend Addr × Bool
  | [], s => (s, false)
  | i :: is, s =>
    match events i with
    | none => slotLoop events f is s
    | some x =>
      let r := f i x s
      if r.2 then (r.1, true) else slotLoop events f is r.1

/-- What an iteration meets: the time, whether `poll` has something, the packets up to an error, and
for the slots with `POLLOUT` and `POLLIN` what `sendmsg` and `recvmsg` give. -/
structure Round (Addr : Type) where
  now : ℤ
  poll : Bool
  packets : List (Packet Addr)
  outs : ℕ → Option ℤ
  ins : ℕ → Option (List UInt8)

def sendQueries (now : ℤ) (s : Msend Addr) : Msend Addr :=
  let unanswered := (List.range cfg.nqueries).filter fun i => (s.slots i).alen = 0
  { s with
    sent := s.sent ++ unanswered.flatMap fun i => cfg.ns.map fun j => (i, j)
    t1 := now
    servfailRetry := 2 * cfg.nqueries }

/-- One iteration; the second component tells whether the loop ends. -/
def msendRound (t0 : ℤ) (rd : Round Addr) (s : Msend Addr) : Msend Addr × Bool :=
  if cfg.timeout ≤ rd.now - t0 then (s, true)
  else if ∀ i < cfg.nqueries, 0 < (s.slots i).alen then (s, true)
  else
    let s := if cfg.retryInterval ≤ rd.now - s.t1 then sendQueries cfg rd.now s else s
    if !rd.poll then (s, false)
    else
      let s := udpLoop cfg rd.packets s
      let r := slotLoop rd.outs tcpOut (List.range cfg.nqueries) s
      if r.2 then r else slotLoop rd.ins (tcpIn cfg) (List.range cfg.nqueries) r.1

/-- The loop of `__res_msend_rc`. -/
def msendRun (t0 : ℤ) : List (Round Addr) → Msend Addr → Msend Addr × Bool
  | [], s => (s, false)
  | rd :: rds, s =>
    let r := msendRound cfg t0 rd s
    if r.2 then r else msendRun t0 rds r.1

/-- The variables before the loop; `answers` and `alen_buf` hold anything. -/
def Msend.start (t0 : ℤ) (answers alenBuf : ℕ → Message) : Msend Addr where
  slots := fun i => ⟨0, answers i, alenBuf i, none, none⟩
  next := 0
  servfailRetry := 0
  t1 := t0 - cfg.retryInterval
  sent := []
  received := []

/-- `if (alens[i]<0) alens[i] = 0;`, after the loop. -/
def Msend.finish (s : Msend Addr) : Msend Addr :=
  { s with slots := fun i => if (s.slots i).alen < 0 then { s.slots i with alen := 0 } else s.slots i }

end Code

/-! ### Pieces of a stream -/

/-- The byte `k` of a stream: in `alen_buf`, and after it in the answer. -/
def streamAt (mem : Bool → Message) (k : ℕ) : UInt8 := if k < 2 then mem false k else mem true (k - 2)

/-- The bytes `bs` of a stream have been stored. -/
def Holds (mem : Bool → Message) (bs : List UInt8) : Prop := ∀ k < bs.length, streamAt mem k = bs.getD k 0

lemma stepMh_room (asize n : ℕ) : ((stepMh (answerIov asize) n).map Iov.len).sum = asize + 2 - n := by
  simp only [answerIov, stepMh]
  split
  · split
    · simp
      omega
    · simp
      omega
  · simp
    omega

lemma getD_drop (bs : List UInt8) (n k : ℕ) : (bs.drop n).getD k 0 = bs.getD (n + k) 0 := by
  rw [getD_eq_getElem?_getD, getD_eq_getElem?_getD, getElem?_drop]

variable {n asize : ℕ} {chunk : List UInt8}

lemma getD_take (bs : List UInt8) {k : ℕ} (h : k < n) : (bs.take n).getD k 0 = bs.getD k 0 := by
  rw [getD_eq_getElem?_getD, getD_eq_getElem?_getD, getElem?_take_of_lt h]

lemma scatter_both (hn : n < 2) (hroom : n + chunk.length ≤ asize + 2) (mem : Bool → Message) (k : ℕ) :
    streamAt (scatter [⟨false, n, 2 - n⟩, ⟨true, 0, asize⟩] chunk mem) k =
      if n ≤ k ∧ k < n + chunk.length then chunk.getD (k - n) 0 else streamAt mem k := by
  have hfirst : (chunk.take (2 - n)).length = min (2 - n) chunk.length := length_take
  have hsecond : ((chunk.drop (2 - n)).take asize).length = chunk.length - (2 - n) := by
    rw [length_take, length_drop]
    omega
  simp only [scatter, streamAt]
  by_cases hk : k < 2
  · rw [if_pos hk, if_pos hk, update_of_ne Bool.false_ne_true, update_self, write]
    by_cases hin : n ≤ k ∧ k < n + chunk.length
    · rw [if_pos (by omega), if_pos hin, getD_take _ (by omega)]
    · rw [if_neg (by omega), if_neg hin]
  · rw [if_neg hk, if_neg hk, update_self, update_of_ne Bool.true_eq_false.mp, write]
    by_cases hin : n ≤ k ∧ k < n + chunk.length
    · rw [if_pos (by omega), if_pos hin, Nat.sub_zero, getD_take _ (by omega), getD_drop,
        show 2 - n + (k - 2) = k - n by omega]
    · rw [if_neg (by omega), if_neg hin]

lemma scatter_answer (hn : 2 ≤ n) (hroom : n + chunk.length ≤ asize + 2) (mem : Bool → Message) (k : ℕ) :
    streamAt (scatter [⟨true, n - 2, asize - (n - 2)⟩] chunk mem) k =
      if n ≤ k ∧ k < n + chunk.length then chunk.getD (k - n) 0 else streamAt mem k := by
  have hall : chunk.take (asize - (n - 2)) = chunk := take_of_length_le (by omega)
  simp only [scatter, streamAt, hall]
  by_cases hk : k < 2
  · rw [if_pos hk, if_pos hk, update_of_ne Bool.false_ne_true, if_neg (by omega)]
  · rw [if_neg hk, if_neg hk, update_self, write]
    by_cases hin : n ≤ k ∧ k < n + chunk.length
    · rw [if_pos (by omega), if_pos hin, show k - 2 - (n - 2) = k - n by omega]
    · rw [if_neg (by omega), if_neg hin]

/-- **A piece of a stream goes where it belongs**, wherever the stream was cut. -/
theorem stepMh_scatter {mem : Bool → Message} {bs : List UInt8} (h : Holds mem bs)
    (hroom : bs.length + chunk.length ≤ asize + 2) :
    Holds (scatter (stepMh (answerIov asize) bs.length) chunk mem) (bs ++ chunk) := by
  have hstored : ∀ k, streamAt (scatter (stepMh (answerIov asize) bs.length) chunk mem) k =
      if bs.length ≤ k ∧ k < bs.length + chunk.length then chunk.getD (k - bs.length) 0
      else streamAt mem k := by
    intro k
    simp only [answerIov, stepMh]
    split
    · next hlong =>
      split
      · next hfull =>
        have hnil : chunk = [] := eq_nil_of_length_eq_zero (by omega)
        subst hnil
        rw [scatter, if_neg (by simp only [length_nil]; omega)]
      · rw [zero_add]
        exact scatter_answer hlong hroom mem k
    · next hshort =>
      rw [zero_add]
      exact scatter_both (not_le.1 hshort) hroom mem k
  intro k hk
  rw [length_append] at hk
  rw [hstored k]
  split
  · next hin => rw [getD_append_right _ _ _ _ hin.1]
  · next hin =>
    have hlt : k < bs.length := by omega
    rw [h k hlt, getD_append _ _ _ _ hlt]

/-! ### What the slots hold -/

section Slots

variable {Addr : Type} (cfg : MsendConf Addr)

/-- The packet `p` is the answer to query `i`. -/
structure UdpAnswer (received : List (Packet Addr)) (i : ℕ) (slot : Slot) (p : Packet Addr) : Prop where
  received : p ∈ received
  sender : p.sender ∈ cfg.ns
  alen : slot.alen = p.data.length
  text : bytes slot.answer 0 p.data.length = p.data
  long : 4 ≤ p.data.length
  id0 : p.data.getD 0 0 = cfg.queryByte i 0
  id1 : p.data.getD 1 0 = cfg.queryByte i 1
  rcode : p.data.getD 3 0 &&& 15 = 0 ∨ p.data.getD 3 0 &&& 15 = 3
  tc : p.data.getD 2 0 &&& 2 = 0

def frameLen (bs : List UInt8) : ℕ := (bs.getD 0 0).toNat * 256 + (bs.getD 1 0).toNat

/-- The first message of the stream `bs` is the answer, as much of it as there is room for. -/
structure TcpAnswer (slot : Slot) (bs : List UInt8) : Prop where
  alen : slot.alen = frameLen bs
  long : 13 ≤ frameLen bs
  complete : min (frameLen bs) cfg.asize + 2 ≤ bs.length
  text : bytes slot.answer 0 (min (frameLen bs) cfg.asize) =
    (bs.drop 2).take (min (frameLen bs) cfg.asize)

/-- A slot without an answer, with one, or with a stream of which some has come. -/
inductive SlotOk (received : List (Packet Addr)) (i : ℕ) (slot : Slot) : Prop where
  | empty : slot.alen = 0 → slot.tcp = none → slot.stream = none → SlotOk received i slot
  | udp (p : Packet Addr) : UdpAnswer cfg received i slot p → slot.tcp = none → slot.stream = none →
      SlotOk received i slot
  | waiting (bs : List UInt8) : slot.alen = -1 → slot.stream = some bs →
      (∀ c, slot.tcp = some c → c.apos = bs.length ∧ bs.length ≤ cfg.asize + 2 ∧ Holds slot.mem bs) →
      SlotOk received i slot
  | tcp (bs : List UInt8) : TcpAnswer cfg slot bs → slot.tcp = none → slot.stream = some bs →
    SlotOk received i slot

structure Inv (s : Msend Addr) : Prop where
  slot : ∀ i, SlotOk cfg s.received i (s.slots i)
  next_le : s.next ≤ cfg.nqueries
  free : s.next < cfg.nqueries → (s.slots s.next).alen = 0

def Keeps (s s' : Msend Addr) : Prop := ∀ i, 0 < (s.slots i).alen → s'.slots i = s.slots i

variable {cfg} {received : List (Packet Addr)} {i : ℕ} {slot : Slot} {s s' s'' : Msend Addr}

lemma Keeps.trans (h : Keeps s s') (h' : Keeps s' s'') : Keeps s s'' := by
  intro i hi
  have hsame := h i hi
  rw [h' i (hsame.symm ▸ hi), hsame]

section

variable (h : SlotOk cfg received i slot)

include h

lemma SlotOk.of_zero (hzero : slot.alen = 0) : slot.tcp = none ∧ slot.stream = none := by
  cases h with
  | empty _ htcp hstream => exact ⟨htcp, hstream⟩
  | udp p hp htcp hstream => exact ⟨htcp, hstream⟩
  | waiting bs halen _ _ =>
    rw [halen] at hzero
    cases hzero
  | tcp bs hbs _ _ =>
    have hlong := hbs.long
    rw [hbs.alen] at hzero
    omega

lemma SlotOk.of_tcp {c : TcpConn} (hc : slot.tcp = some c) :
    ∃ bs, slot.alen = -1 ∧ slot.stream = some bs ∧ c.apos = bs.length ∧ bs.length ≤ cfg.asize + 2 ∧
      Holds slot.mem bs := by
  cases h with
  | waiting bs halen hstream hall => exact ⟨bs, halen, hstream, hall c hc⟩
  | empty _ htcp _ =>
    rw [htcp] at hc
    cases hc
  | udp p _ htcp _ =>
    rw [htcp] at hc
    cases hc
  | tcp bs _ htcp _ =>
    rw [htcp] at hc
    cases hc

lemma SlotOk.mono (more : List (Packet Addr)) : SlotOk cfg (received ++ more) i slot := by
  cases h with
  | empty halen htcp hstream => exact .empty halen htcp hstream
  | udp p hp htcp hstream =>
    exact .udp p { hp with received := mem_append_left more hp.received } htcp hstream
  | waiting bs halen hstream hall => exact .waiting bs halen hstream hall
  | tcp bs hbs htcp hstream => exact .tcp bs hbs htcp hstream

end

@[simp] lemma Msend.upd_self (s : Msend Addr) (i : ℕ) (f : Slot → Slot) :
    (s.upd i f).slots i = f (s.slots i) :=
  update_self ..

lemma Msend.upd_of_ne (s : Msend Addr) {i j : ℕ} (f : Slot → Slot) (h : j ≠ i) :
    (s.upd i f).slots j = s.slots j :=
  update_of_ne h ..

lemma Inv.upd (h : Inv cfg s) {f : Slot → Slot} (hold : (s.slots i).alen ≤ 0)
    (hnew : SlotOk cfg s.received i (f (s.slots i)))
    (hfree : i = s.next → s.next < cfg.nqueries → (f (s.slots i)).alen = 0) :
    Inv cfg (s.upd i f) ∧ Keeps s (s.upd i f) := by
  refine ⟨⟨?_, h.next_le, ?_⟩, ?_⟩
  · intro j
    by_cases hj : j = i
    · rw [hj, s.upd_self]
      exact hnew
    · rw [s.upd_of_ne f hj]
      exact h.slot j
  · intro hnext
    by_cases hj : s.next = i
    · have hzero := hfree hj.symm hnext
      rw [show (s.upd i f).next = i from hj, s.upd_self]
      exact hzero
    · rw [s.upd_of_ne f (show (s.upd i f).next ≠ i from hj)]
      exact h.free hnext
  · intro j hj
    have hne : j ≠ i := by
      rintro rfl
      omega
    exact s.upd_of_ne f hne

end Slots

/-! ### A packet -/

section Udp

variable {Addr : Type} {cfg : MsendConf Addr} {s : Msend Addr}

lemma findQuery_spec (cfg : MsendConf Addr) (buf : Message) (n i : ℕ) :
    i ≤ findQuery cfg buf n i ∧ findQuery cfg buf n i ≤ i + n ∧ (findQuery cfg buf n i < i + n →
        buf 0 = cfg.queryByte (findQuery cfg buf n i) 0 ∧
        buf 1 = cfg.queryByte (findQuery cfg buf n i) 1) := by
  induction n generalizing i with
  | zero => exact ⟨le_rfl, le_rfl, fun h => absurd h (lt_irrefl _)⟩
  | succ n ih =>
    rw [findQuery]
    split
    · obtain ⟨hlow, hhigh, hfound⟩ := ih (i + 1)
      exact ⟨by omega, by omega, fun h => hfound (by omega)⟩
    · next hmatch =>
      rw [not_or, not_not, not_not] at hmatch
      exact ⟨le_rfl, by omega, fun _ => hmatch⟩

lemma skipFull_spec (slots : ℕ → Slot) (n i : ℕ) :
    skipFull slots n i ≤ i + n ∧
    (skipFull slots n i < i + n → (slots (skipFull slots n i)).alen = 0) := by
  induction n generalizing i with
  | zero => exact ⟨le_rfl, fun h => absurd h (lt_irrefl _)⟩
  | succ n ih =>
    rw [skipFull]
    split
    · obtain ⟨hhigh, hzero⟩ := ih (i + 1)
      exact ⟨by omega, fun h => hzero (by omega)⟩
    · next hzero =>
      rw [not_not] at hzero
      exact ⟨by omega, fun _ => hzero⟩

lemma write_packet (m : Message) (data : List UInt8) (asize : ℕ) {k : ℕ}
    (hk : k < min data.length asize) :
    write m 0 (data.take asize) k = data.getD k 0 := by
  rw [write, length_take, if_pos (by omega), Nat.sub_zero, getD_take data (by omega)]

lemma bytes_eq_take {m : Message} {data : List UInt8} {n : ℕ} (hn : n ≤ data.length)
    (h : ∀ k < n, m k = data.getD k 0) : bytes m 0 n = data.take n := by
  apply ext_getElem
  · simp [hn]
  · intro k hk _
    rw [bytes_length] at hk
    have hget := h k hk
    rw [getD_eq_getElem _ _ (by omega)] at hget
    simpa [bytes] using hget

variable {i : ℕ}

lemma storeUdp_spec (h : Inv cfg s) (p : Packet Addr) (hlong : 4 ≤ min p.data.length cfg.asize)
    (hnext : s.next < cfg.nqueries)
    (hbuf : ∀ k < min p.data.length cfg.asize, (s.slots s.next).answer k = p.data.getD k 0) :
    ∃ answer, (∀ k < min p.data.length cfg.asize, answer k = p.data.getD k 0) ∧
    (storeUdp cfg p i s).slots =
        Function.update s.slots i
        { s.slots i with alen := (min p.data.length cfg.asize : ℕ), answer := answer } ∧
      (storeUdp cfg p i s).received = s.received ∧ (storeUdp cfg p i s).next ≤ cfg.nqueries ∧
      ((storeUdp cfg p i s).next < cfg.nqueries →
        (storeUdp cfg p i s).next ≠ i ∧ (s.slots (storeUdp cfg p i s).next).alen = 0) := by
  simp only [storeUdp]
  by_cases hsame : i = s.next
  · -- the answer is in its place; `next` goes on
    rw [if_pos (show i = (s.upd i _).next from hsame)]
    obtain ⟨hle, hzero⟩ := skipFull_spec
      (s.upd i fun slot => { slot with alen := (min p.data.length cfg.asize : ℕ) }).slots
        (cfg.nqueries - s.next) s.next
    refine ⟨(s.slots i).answer, hsame ▸ hbuf, rfl, rfl, ?_, ?_⟩
    · simp only [Msend.upd] at hle ⊢
      omega
    · intro hlt
      have hfree := hzero (by simp only [Msend.upd] at hlt ⊢; omega)
      have hne : skipFull (s.upd i fun slot =>
        { slot with alen := (min p.data.length cfg.asize : ℕ) }).slots
          (cfg.nqueries - s.next) s.next ≠ i := by
        intro heq
        rw [heq, Msend.upd_self] at hfree
        simp only at hfree
        omega
      rw [Msend.upd_of_ne _ _ hne] at hfree
      exact ⟨hne, hfree⟩
  · rw [if_neg (show ¬i = (s.upd i _).next from hsame)]
    have hbytes : bytes (s.slots s.next).answer 0 (min p.data.length cfg.asize) =
        p.data.take (min p.data.length cfg.asize) :=
      bytes_eq_take (min_le_left _ _) hbuf
    refine ⟨write (s.slots i).answer 0
      (bytes (s.slots s.next).answer 0 (min p.data.length cfg.asize)), ?_, ?_, rfl,
      h.next_le, fun hlt => ⟨Ne.symm hsame, h.free hlt⟩⟩
    · intro k hk
      rw [hbytes]
      exact write_packet _ _ _ (by omega)
    · simp [Msend.upd, update_of_ne (Ne.symm hsame)]

/-- **An answer is accepted** for a slot without one. -/
theorem Inv.acceptUdp (h : Inv cfg s) {p : Packet Addr} (hrec : p ∈ s.received)
    (hsender : p.sender ∈ cfg.ns)
    (hlong : 4 ≤ min p.data.length cfg.asize) (hnext : s.next < cfg.nqueries)
    (hbuf : ∀ k < min p.data.length cfg.asize, (s.slots s.next).answer k = p.data.getD k 0)
    (hi : (s.slots i).alen = 0)
    (hid0 : p.data.getD 0 0 = cfg.queryByte i 0) (hid1 : p.data.getD 1 0 = cfg.queryByte i 1)
    (hrcode : p.data.getD 3 0 &&& 15 = 0 ∨ p.data.getD 3 0 &&& 15 = 3) :
    Inv cfg (acceptUdp cfg p i s) ∧ Keeps s (acceptUdp cfg p i s) := by
  obtain ⟨answer, hanswer, hslots, hreceived, hle, hfree⟩ := storeUdp_spec h p hlong hnext hbuf
  obtain ⟨htcp, hstream⟩ := (h.slot i).of_zero hi
  -- whatever the slot becomes, the others stay and `next` is one of them
  have hfinal : ∀ s' slot, s'.slots = update s.slots i slot →
      s'.received = s.received → s'.next = (storeUdp cfg p i s).next → SlotOk cfg s.received i slot →
      Inv cfg s' ∧ Keeps s s' := by
    intro s' slot hs' hr' hn' hok
    refine ⟨⟨?_, hn' ▸ hle, ?_⟩, ?_⟩
    · intro j
      rw [hs', hr']
      by_cases hj : j = i
      · rw [hj, update_self]
        exact hok
      · rw [update_of_ne hj]
        exact h.slot j
    · intro hlt
      rw [hn'] at hlt ⊢
      obtain ⟨hne, hzero⟩ := hfree hlt
      rw [hs', update_of_ne hne]
      exact hzero
    · intro j hj
      have hne : j ≠ i := by
        rintro rfl
        omega
      rw [hs', update_of_ne hne]
  simp only [Musl.Network.acceptUdp]
  split
  · refine hfinal _ _ (by rw [Msend.upd, hslots, update_idem]) hreceived rfl ?_
    refine .waiting [] rfl rfl fun c hc => ?_
    split at hc
    · cases hc
      exact ⟨rfl, zero_le _, fun k hk => absurd hk (not_lt_zero k)⟩
    · cases hc
  · next hwhole =>
    rw [not_or, not_not, hslots, update_self] at hwhole
    obtain ⟨htc, hfit⟩ := hwhole
    have hmin : min p.data.length cfg.asize = p.data.length := min_eq_left (not_lt.1 hfit)
    refine hfinal _ _ hslots hreceived rfl (.udp p ?_ htcp hstream)
    rw [hmin] at hanswer hlong
    refine ⟨hrec, hsender, by rw [hmin], ?_, hlong, hid0, hid1, hrcode, ?_⟩
    · rw [bytes_eq_take le_rfl hanswer, take_length]
    · rw [← hanswer 2 (by omega)]
      exact htc

variable [DecidableEq Addr]

/-- **A packet is received.** -/
theorem Inv.udpStep (h : Inv cfg s) (p : Packet Addr) (hnext : s.next < cfg.nqueries) :
    Inv cfg (udpStep cfg p s) ∧ Keeps s (udpStep cfg p s) := by
  -- the packet is in the slot `next`, which has no answer
  have hzero := h.free hnext
  obtain ⟨htcp, hstream⟩ := (h.slot s.next).of_zero hzero
  have hlog : Inv cfg { s with received := s.received ++ [p] } :=
    ⟨fun i => (h.slot i).mono [p], h.next_le, h.free⟩
  obtain ⟨hinv, hkeeps⟩ := hlog.upd
    (f := fun slot => { slot with answer := write slot.answer 0 (p.data.take cfg.asize) }) hzero.le
    (.empty hzero htcp hstream) (fun _ _ => hzero)
  simp only [Musl.Network.udpStep]
  generalize hs1 : ({ s with received := s.received ++ [p] } : Msend Addr).upd s.next
    (fun slot => { slot with answer := write slot.answer 0 (p.data.take cfg.asize) }) = s1 at hinv hkeeps
  have hrec : p ∈ s1.received := by
    rw [← hs1]
    exact mem_append_right _ (mem_singleton_self p)
  have hnext1 : s1.next = s.next := by rw [← hs1]; rfl
  have hbuf : ∀ k < min p.data.length cfg.asize, (s1.slots s1.next).answer k = p.data.getD k 0 := by
    intro k hk
    rw [← hs1]
    simp only [Msend.upd, update_self]
    exact write_packet _ _ _ hk
  split
  · exact ⟨hinv, hkeeps⟩
  · next hlong =>
    rw [not_lt] at hlong
    split
    · exact ⟨hinv, hkeeps⟩
    · next hsender =>
      rw [not_not] at hsender
      obtain ⟨_, hhigh, hfound⟩ :=
        findQuery_spec cfg (s1.slots s1.next).answer (cfg.nqueries - s1.next) s1.next
      split
      · exact ⟨hinv, hkeeps⟩
      · next hsome =>
        split
        · exact ⟨hinv, hkeeps⟩
        · next hopen =>
          rw [not_not] at hopen
          obtain ⟨hid0, hid1⟩ := hfound (by omega)
          rw [hbuf 0 (by omega)] at hid0
          rw [hbuf 1 (by omega)] at hid1
          split
          · next hrcode =>
            rw [hbuf 3 (by omega)] at hrcode
            obtain ⟨hinv', hkeeps'⟩ :=
              hinv.acceptUdp hrec hsender hlong (hnext1 ▸ hnext) hbuf hopen hid0 hid1 hrcode
            exact ⟨hinv', hkeeps.trans hkeeps'⟩
          · split
            · exact ⟨⟨hinv.slot, hinv.next_le, hinv.free⟩, hkeeps⟩
            · exact ⟨hinv, hkeeps⟩

lemma Inv.udpLoop (h : Inv cfg s) (ps : List (Packet Addr)) :
    Inv cfg (udpLoop cfg ps s) ∧ Keeps s (udpLoop cfg ps s) := by
  induction ps generalizing s with
  | nil => exact ⟨h, fun _ _ => rfl⟩
  | cons p ps ih =>
    rw [Musl.Network.udpLoop]
    split
    · next hnext =>
      obtain ⟨hinv, hkeeps⟩ := h.udpStep p hnext
      obtain ⟨hinv', hkeeps'⟩ := ih hinv
      exact ⟨hinv', hkeeps.trans hkeeps'⟩
    · exact ⟨h, fun _ _ => rfl⟩

end Udp

/-! ### A piece of a stream -/

section Tcp

variable {Addr : Type} {cfg : MsendConf Addr} {s : Msend Addr}

lemma Inv.tcpOut (h : Inv cfg s) (i : ℕ) (r : ℤ) :
    Inv cfg (tcpOut i r s).1 ∧ Keeps s (tcpOut i r s).1 := by
  simp only [Musl.Network.tcpOut]
  split
  · exact ⟨h, fun _ _ => rfl⟩
  · next c hc =>
    split
    · exact ⟨h, fun _ _ => rfl⟩
    · obtain ⟨bs, halen, hstream, hapos, hlen, hholds⟩ := (h.slot i).of_tcp hc
      have hneg : (s.slots i).alen ≤ 0 := by omega
      refine h.upd (f := fun slot =>
        { slot with tcp := some { c with qpos := c.qpos + r.toNat } }) hneg ?_ ?_
      · refine .waiting bs halen hstream fun c' hc' => ?_
        cases hc'
        exact ⟨hapos, hlen, hholds⟩
      · intro hi hnext
        rw [hi, h.free hnext] at halen
        cases halen

lemma Slot.receive_mem (asize : ℕ) (chunk : List UInt8) (c : TcpConn) (slot : Slot) :
    (slot.receive asize chunk c).mem = scatter (stepMh (answerIov asize) c.apos) chunk slot.mem := by
  funext b
  cases b with
  | false => rfl
  | true => rfl

lemma Holds.frame {slot : Slot} {bs : List UInt8} (h : Holds slot.mem bs) (hlen : 2 ≤ bs.length) :
    (slot.alenBuf 0).toNat * 256 + (slot.alenBuf 1).toNat = frameLen bs ∧
      ∀ n, n + 2 ≤ bs.length → bytes slot.answer 0 n = (bs.drop 2).take n := by
  have h0 : slot.alenBuf 0 = bs.getD 0 0 := h 0 (by omega)
  have h1 : slot.alenBuf 1 = bs.getD 1 0 := h 1 (by omega)
  refine ⟨by rw [frameLen, h0, h1], fun n hn => ?_⟩
  apply bytes_eq_take
  · rw [length_drop]
    omega
  · intro k hk
    have hk2 := h (k + 2) (by omega)
    rw [getD_drop, add_comm 2 k, ← hk2]
    rfl

/-- **A piece of a stream is received.** -/
theorem Inv.tcpIn (h : Inv cfg s) (i : ℕ) (chunk : List UInt8) :
    Inv cfg (tcpIn cfg i chunk s).1 ∧ Keeps s (tcpIn cfg i chunk s).1 := by
  simp only [Musl.Network.tcpIn]
  split
  · exact ⟨h, fun _ _ => rfl⟩
  · next c hc =>
    obtain ⟨bs, halen, hstream, hapos, hlen, hholds⟩ := (h.slot i).of_tcp hc
    rw [stepMh_room]
    generalize hpiece : chunk.take (cfg.asize + 2 - c.apos) = piece
    have hroom : bs.length + piece.length ≤ cfg.asize + 2 := by
      rw [← hpiece, length_take]
      omega
    split
    · exact ⟨h, fun _ _ => rfl⟩
    · have hnew : Holds ((s.slots i).receive cfg.asize piece c).mem (bs ++ piece) := by
        rw [Slot.receive_mem, hapos]
        exact stepMh_scatter hholds hroom
      have hfree : i = s.next → s.next < cfg.nqueries → False := by
        intro hi hnext
        rw [hi, h.free hnext] at halen
        cases halen
      -- more is to come
      obtain ⟨hinv, hkeeps⟩ := h.upd (f := Slot.receive cfg.asize piece c) (by omega)
        (by
          refine .waiting (bs ++ piece) halen ?_ ?_
          · simp [Slot.receive, hstream]
          · intro c' hc'
            cases hc'
            rw [length_append]
            exact ⟨by rw [hapos], hroom, hnew⟩)
        (fun hi hnext => (hfree hi hnext).elim)
      rw [s.upd_self]
      split
      · exact ⟨hinv, hkeeps⟩
      · next hlength =>
        have htwo : 2 ≤ (bs ++ piece).length := by
          rw [length_append]
          omega
        obtain ⟨hframe, htext⟩ := hnew.frame htwo
        rw [hframe]
        split
        · exact ⟨hinv, hkeeps⟩
        · next hlong =>
          split
          · exact ⟨hinv, hkeeps⟩
          · next hcomplete =>
            split
            · exact ⟨hinv, hkeeps⟩
            · have hall : min (frameLen (bs ++ piece)) cfg.asize + 2 ≤ (bs ++ piece).length := by
                rw [length_append]
                omega
              obtain ⟨hinv', hkeeps'⟩ := hinv.upd
                (f := fun slot => { slot with alen := frameLen (bs ++ piece), tcp := none })
                (by rw [s.upd_self]; exact (show (s.slots i).alen ≤ 0 by omega))
                (by
                  rw [s.upd_self]
                  refine .tcp (bs ++ piece) ⟨rfl, not_lt.1 hlong, hall, htext _ hall⟩ rfl ?_
                  simp [Slot.receive, hstream])
                (fun hi hnext => (hfree hi hnext).elim)
              exact ⟨hinv', hkeeps.trans hkeeps'⟩

end Tcp

/-! ### All iterations -/

section Runs

variable {Addr : Type} {cfg : MsendConf Addr} {s : Msend Addr}

lemma start_inv (cfg : MsendConf Addr) (t0 : ℤ) (answers alenBuf : ℕ → Message) :
    Inv cfg (.start cfg t0 answers alenBuf) :=
  ⟨fun _ => .empty rfl rfl rfl, zero_le _, fun _ => rfl⟩

lemma Inv.slotLoop {α : Type} (events : ℕ → Option α) {f : ℕ → α → Msend Addr → Msend Addr × Bool}
    (hf : ∀ i x s, Inv cfg s → Inv cfg (f i x s).1 ∧ Keeps s (f i x s).1) (is : List ℕ) (h : Inv cfg s) :
    Inv cfg (slotLoop events f is s).1 ∧ Keeps s (slotLoop events f is s).1 := by
  induction is generalizing s with
  | nil => exact ⟨h, fun _ _ => rfl⟩
  | cons i is ih =>
    simp only [Musl.Network.slotLoop]
    split
    · exact ih h
    · next x _ =>
      obtain ⟨hinv, hkeeps⟩ := hf i x s h
      split
      · exact ⟨hinv, hkeeps⟩
      · obtain ⟨hinv', hkeeps'⟩ := ih hinv
        exact ⟨hinv', hkeeps.trans hkeeps'⟩

variable [DecidableEq Addr]

lemma Inv.round (h : Inv cfg s) (t0 : ℤ) (rd : Round Addr) :
    Inv cfg (msendRound cfg t0 rd s).1 ∧ Keeps s (msendRound cfg t0 rd s).1 := by
  have hsend : Inv cfg (if cfg.retryInterval ≤ rd.now - s.t1 then sendQueries cfg rd.now s else s) ∧
      Keeps s (if cfg.retryInterval ≤ rd.now - s.t1 then sendQueries cfg rd.now s else s) := by
    split
    · exact ⟨⟨h.slot, h.next_le, h.free⟩, fun _ _ => rfl⟩
    · exact ⟨h, fun _ _ => rfl⟩
  simp only [msendRound]
  generalize (if cfg.retryInterval ≤ rd.now - s.t1 then sendQueries cfg rd.now s else s) = s1 at hsend
  obtain ⟨hinv, hkeeps⟩ := hsend
  split
  · exact ⟨h, fun _ _ => rfl⟩
  · split
    · exact ⟨h, fun _ _ => rfl⟩
    · split
      · exact ⟨hinv, hkeeps⟩
      · obtain ⟨hinv2, hkeeps2⟩ := hinv.udpLoop rd.packets
        obtain ⟨hinv3, hkeeps3⟩ :=
          Inv.slotLoop rd.outs (fun i r s h => h.tcpOut i r) (range cfg.nqueries) hinv2
        have hkeeps3 := (hkeeps.trans hkeeps2).trans hkeeps3
        split
        · exact ⟨hinv3, hkeeps3⟩
        · obtain ⟨hinv4, hkeeps4⟩ :=
            Inv.slotLoop rd.ins (fun i chunk s h => h.tcpIn i chunk) (range cfg.nqueries) hinv3
          exact ⟨hinv4, hkeeps3.trans hkeeps4⟩

lemma Inv.run (h : Inv cfg s) (t0 : ℤ) (rds : List (Round Addr)) :
    Inv cfg (msendRun cfg t0 rds s).1 ∧ Keeps s (msendRun cfg t0 rds s).1 := by
  induction rds generalizing s with
  | nil => exact ⟨h, fun _ _ => rfl⟩
  | cons rd rds ih =>
    obtain ⟨hinv, hkeeps⟩ := h.round t0 rd
    simp only [msendRun]
    split
    · exact ⟨hinv, hkeeps⟩
    · obtain ⟨hinv', hkeeps'⟩ := ih hinv
      exact ⟨hinv', hkeeps.trans hkeeps'⟩

lemma msendRun_append (t0 : ℤ) (rds more : List (Round Addr)) (s : Msend Addr) :
    msendRun cfg t0 (rds ++ more) s =
      if (msendRun cfg t0 rds s).2 then msendRun cfg t0 rds s
      else msendRun cfg t0 more (msendRun cfg t0 rds s).1 := by
  induction rds generalizing s with
  | nil => rfl
  | cons rd rds ih =>
    simp only [cons_append, msendRun]
    by_cases hstop : (msendRound cfg t0 rd s).2
    · simp [if_pos hstop]
    · simp only [if_neg hstop]
      exact ih _

end Runs

/-- Every answer is a packet for its query, or what has come over TCP. -/
def Bookkept {Addr : Type} (cfg : MsendConf Addr) (s : Msend Addr) : Prop :=
  ∀ i, 0 < (s.slots i).alen →
    match (s.slots i).stream with
    | none => ∃ p, UdpAnswer cfg s.received i (s.slots i) p
    | some bs => TcpAnswer cfg (s.slots i) bs

lemma Inv.bookkept {Addr : Type} {cfg : MsendConf Addr} {s : Msend Addr} (h : Inv cfg s) :
    Bookkept cfg s := by
  intro i hi
  cases h.slot i with
  | empty halen _ _ => omega
  | udp p hp _ hstream =>
    rw [hstream]
    exact ⟨p, hp⟩
  | waiting bs halen _ _ => omega
  | tcp bs hbs _ hstream =>
    rw [hstream]
    exact hbs

/-- **The answers at every iteration**, whatever is received: each is a packet for its query or the
message that came over TCP, as much of it as there is room for, and no answer changes later. -/
theorem msend_bookkept {Addr : Type} [DecidableEq Addr] (cfg : MsendConf Addr) (t0 : ℤ)
    (answers alenBuf : ℕ → Message) (rds more : List (Round Addr)) :
    Bookkept cfg (msendRun cfg t0 rds (.start cfg t0 answers alenBuf)).1 ∧
      Bookkept cfg (msendRun cfg t0 rds (.start cfg t0 answers alenBuf)).1.finish ∧
      Keeps (msendRun cfg t0 rds (.start cfg t0 answers alenBuf)).1
        (msendRun cfg t0 (rds ++ more) (.start cfg t0 answers alenBuf)).1 := by
  obtain ⟨hinv, _⟩ := (start_inv cfg t0 answers alenBuf).run t0 rds
  refine ⟨hinv.bookkept, ?_, ?_⟩
  · intro i hi
    have hsame : ((msendRun cfg t0 rds (.start cfg t0 answers alenBuf)).1.finish).slots i =
        (msendRun cfg t0 rds (.start cfg t0 answers alenBuf)).1.slots i := by
      simp only [Msend.finish] at hi ⊢
      split at hi
      · cases hi
      · next hpos => rw [if_neg hpos]
    rw [hsame] at hi ⊢
    exact hinv.bookkept i hi
  · rw [msendRun_append]
    split
    · exact fun _ _ => rfl
    · exact (hinv.run t0 more).2

/-- One query with the id 7 9, one nameserver, and arrays of 512 bytes. -/
def oneQuery : MsendConf ℕ := ⟨[[7, 9]], [0], 512, 5000, 2500⟩

/-- A packet with the TC bit, and a message of 600 bytes over TCP. -/
def longReply : List (Round ℕ) :=
  [⟨0, true, [⟨[7, 9, 2, 0], 0, 0⟩], fun _ => none, fun _ => none⟩,
    ⟨1, true, [], fun _ => none, fun _ => some ([2, 88] ++ List.replicate 600 16)⟩]

/-- The slot of a query after its reply. -/
def replySlot : Slot :=
  (msendRun oneQuery 0 longReply (.start oneQuery 0 (fun _ _ => 0) fun _ _ => 0)).1.slots 0

/-- The length is that of the message, of which only 512 bytes are in the answer. -/
theorem long_reply_cut : replySlot.alen = 600 ∧ bytes replySlot.answer 0 600 ≠ replicate 600 16 ∧
      bytes replySlot.answer 0 512 = replicate 512 16 := by
  decide +kernel

end Musl.Network
