/-
Bpfsnoop.Trace.WireFormat — the structs that the BPF programs and user space
share.

Each is declared twice, in C and in Go. The records of the ring buffer are
written by the programs field by field into memory that was not cleared, and
read by `record.Handle` through a pointer to the Go struct. The
configurations go the other way: user space writes the Go struct, and the
programs read the C one, whose flags are bit fields.

`runSamples_eq`: of the event `record.Handle` reads what the program meant,
and nothing of the memory before; the parts behind it are as their code left
them, which does not write all of the bytes: `output_tuple` leaves the
members that the protocol has not (`pktData_write`), and a string ends with
its NUL. `config_roundTrip`: the program has the configuration it was given.
-/
import Bpfsnoop.Lib.Layout
import Bpfsnoop.Trace.EventLoop
import Bpfsnoop.Trace.Packets

namespace Bpfsnoop.Trace.EventLoop.Wire

open Ebpf Lib

/-! ## Declarations -/

/-- An unsigned or signed integer of `n` bytes. -/
def int (name : String) (n : Nat) : Field := ⟨name, n, n⟩

/-- An array of bytes. -/
def array (name : String) (n : Nat) : Field := ⟨name, n, 1⟩

/-- `__attribute__((packed))`. -/
def packed (L : Layout) : Layout := L.map fun f => { f with align := 1 }

/-- `struct event`. -/
def cEvent : Layout :=
  [int "type" 2, int "length" 2, int "kernel_ts" 4, int "session_id" 8, int "func_ip" 8, int "cpu" 4, int "pid" 4,
    array "comm" 16, int "func_stack_id" 8]

/-- `Event`. -/
def goEvent : Layout :=
  [int "Type" 2, int "Length" 2, int "KernNs" 4, int "SessID" 8, int "FuncIP" 8, int "CPU" 4, int "Pid" 4,
    array "Comm" 16, int "StackID" 8]

/-- `struct bpfsnoop_insn_event`. -/
def cInsnEvent : Layout :=
  [int "type" 2, int "length" 2, int "kernel_ts" 4, int "session_id" 8, int "insn_ip" 8, int "cpu" 4]

/-- `InsnEvent`. -/
def goInsnEvent : Layout :=
  [int "Type" 2, int "Length" 2, int "KernNs" 4, int "SessID" 8, int "InsnIP" 8, int "CPU" 4]

/-- `struct bpfsnoop_fgraph_event`. -/
def cGraphEvent : Layout :=
  [int "type" 2, int "length" 2, int "kernel_ts" 4, int "session_id" 8, int "func_ip" 8, int "cpu" 4, int "depth" 4]

/-- `GraphEvent`. -/
def goGraphEvent : Layout :=
  [int "Type" 2, int "Length" 2, int "KernNs" 4, int "SessID" 8, int "FuncIP" 8, int "CPU" 4, int "Depth" 4]

/-- `struct bpfsnoop_pkt_data`. -/
def cPktData : Layout := [int "addrs" 8, int "ports" 4, int "protocol" 1, int "tcp_flags" 1, array "pad" 2]

/-- `PktData`. -/
def goPktData : Layout := [array "Addrs" 8, array "Ports" 4, int "Proto" 1, int "TCPFl" 1, array "Pad" 2]

/-- `struct bpfsnoop_fn_args` of `bpfsnoop_cfg.h`. -/
def cFnArgs : Layout :=
  [int "args_nr" 4, int "with_retval" 1, array "pad" 3, int "buf_size" 4, int "data_size" 4]

/-- `struct bpfsnoop_config`; the bit fields are of one word. -/
def cConfig : Layout := packed (int "bits" 4 :: int "pid" 4 :: cFnArgs)

/-- `BpfsnoopConfig`. -/
def goConfig : Layout :=
  [int "Flags" 4, int "FilterPid" 4, int "FnArgsNr" 4, int "WithRet" 1, array "Pad" 3, int "FnArgsBuf" 4,
    int "ArgDataSz" 4]

/-- `struct bpfsnoop_fn_args` of `bpfsnoop_fgraph.c`. -/
def cFgraphFnArgs : Layout := [int "args_nr" 4, int "with_retval" 1, array "pad" 3, int "buf_size" 4]

/-- `struct bpfsnoop_fgraph_configs`. -/
def cFgraphConfig : Layout :=
  packed ([int "func_ip" 8, int "max_depth" 4, int "entry" 1, int "tailcall_in_bpf2bpf" 1, array "pad" 2,
    int "mypid" 4] ++ cFgraphFnArgs)

/-- `bpfFgraphConfig`. -/
def goFgraphConfig : Layout :=
  [int "FuncIP" 8, int "MaxDepth" 4, int "Entry" 1, int "TinBPF" 1, int "Pad2" 2, int "MyPID" 4, int "FnArgsNr" 4,
    int "WithRet" 1, array "Pad" 3, int "FnArgsBuf" 4]

theorem event_places : goEvent.places = cEvent.places ∧ goInsnEvent.places = cInsnEvent.places ∧
    goGraphEvent.places = cGraphEvent.places := by decide

theorem pktData_places : goPktData.places = cPktData.places ∧ cPktData.sizeOf = sizeOfPktData := by decide

theorem config_places : cConfig.places = goConfig.places ∧ cFgraphConfig.places = goFgraphConfig.places := by decide

theorem event_sizes : cEvent.sizeOf = sizeOfEvent ∧ goEvent.sizeOf = sizeOfEvent ∧
    cGraphEvent.sizeOf = sizeOfGraphEvent ∧ goGraphEvent.sizeOf = sizeOfGraphEvent ∧
    goInsnEvent.sizeOf = cInsnEvent.sizeOf := by decide

theorem config_sizes : cConfig.sizeOf = goConfig.sizeOf ∧ cFgraphConfig.sizeOf = goFgraphConfig.sizeOf := by decide

/-- An integer field. -/
def field (w : Nat) (L : Layout) (i : Nat) (bytes : List Byte) : BitVec w := uint w (L.get i bytes)

/-! ## What the programs write -/

def eventTypeInsn : BitVec 16 := 3
def eventTypeGraphEntry : BitVec 16 := 4
def eventTypeGraphExit : BitVec 16 := 5

/-- A clock of 64 bits in an event. -/
def kernelTs (ns : Word) : BitVec 32 := ns.setWidth 32

/-- Code that fills a part of a record in place. It is given the bytes that
were reserved, and need not write them all. -/
structure InPlace (size : Nat) where
  write : List Byte → List Byte
  length_write : ∀ old, old.length = size → (write old).length = size

/-- The tuple in memory. -/
def pktData (L : Layout) (bytes : List Byte) : PktData where
  addrs := field 64 L 0 bytes
  ports := field 32 L 1 bytes
  protocol := field 8 L 2 bytes
  tcpFlags := field 8 L 3 bytes

/-- The packet of `output_pkt`, as it was injected: that of an skb or of an XDP
buffer or frame, or none where `output_pskb` cannot read its pointer. -/
inductive PacketArg where
  | skb (mem : Word → Byte) (skip : BitVec 32) (skb : SkBuff)
  | xdp (mem : Word → Byte) (skip : BitVec 32) (data : Word)
  | unread

namespace PacketArg

/-- What `output_pkt` makes of the tuple that was there. -/
def output : PacketArg → PktData → PktData
  | .skb mem skip buff, pkt => (outputSkb mem skip buff pkt).value
  | .xdp mem skip data, pkt => (outputXdp mem skip data pkt).value
  | .unread, pkt => pkt

variable (p : PacketArg)

/-- The members, and the padding, which nobody writes. -/
def values (old : List Byte) : List (List Byte) :=
  let pkt := p.output (pktData cPktData old)
  [uintBytes pkt.addrs, uintBytes pkt.ports, uintBytes pkt.protocol, uintBytes pkt.tcpFlags, cPktData.get 4 old]

/-- `output_pkt`, in place. -/
def write (old : List Byte) : List Byte := cPktData.put (p.values old) old

variable {old : List Byte} (hold : old.length = sizeOfPktData)

include hold

theorem fits_values : cPktData.Fits (p.values old) := by
  have hpad : (cPktData.get 4 old).length = 2 := by
    change ((old.drop 14).take 2).length = 2
    rw [List.length_take, List.length_drop, hold]
    decide
  simp only [Layout.Fits, values, List.map_cons, hpad, length_uintBytes]
  rfl

theorem length_write : (p.write old).length = sizeOfPktData := by
  rw [write, Layout.length_put (by decide) (p.fits_values hold) (by rw [pktData_places.2, hold]), hold]

/-- **The tuple that is read** is the one that `output_pkt` made of the old
one. -/
theorem pktData_write : pktData goPktData (p.write old) = p.output (pktData cPktData old) := by
  have hget {v : List Byte} {i : Nat} (hi : (p.values old)[i]? = some v) : goPktData.get i (p.write old) = v :=
    Layout.get_put_of_places (by decide) (p.fits_values hold) (by rw [pktData_places.2, hold]) pktData_places.1 hi
  have hfield {w : Nat} {x : BitVec w} {i : Nat} (hw : 8 * (w / 8) = w) (hi : (p.values old)[i]? = some (uintBytes x)) :
      field w goPktData i (p.write old) = x := by
    rw [field, hget hi, uint_bytes hw]
  rw [pktData, hfield (i := 0) rfl rfl, hfield (i := 1) rfl rfl, hfield (i := 2) rfl rfl, hfield (i := 3) rfl rfl]

end PacketArg

/-- What `emit_bpfsnoop_event` has when it writes its record, and the code of
its parts: `output_fn_args`, `output_pkt` and `output_arg`. -/
structure FuncWrite where
  cfg : BpfsnoopConfig
  ns : Word
  sessionId : Word
  funcIP : Word
  cpu : BitVec 32
  pid : BitVec 32
  comm : List Byte
  stackId : BitVec 64
  fnArgs : InPlace cfg.fnArgsBuf.toNat
  pkt : PacketArg
  argData : InPlace cfg.argDataSz.toNat
  length_comm : comm.length = 16
  /-- As `setBpfsnoopConfig` has it. -/
  no_argData : cfg.outputArg = false → cfg.argDataSz = 0

/-- `bpfsnoop_insn`, likewise. -/
structure InsnWrite where
  ns : Word
  sessionId : Word
  insnIP : Word
  cpu : BitVec 32

/-- `bpfsnoop_fgraph`, likewise. -/
structure GraphWrite where
  entry : Bool
  fnArgsBuf : BitVec 32
  ns : Word
  sessionId : Word
  funcIP : Word
  cpu : BitVec 32
  depth : BitVec 32
  fnArgs : InPlace fnArgsBuf.toNat

namespace FuncWrite

variable (f : FuncWrite)

/-- `event_type`. -/
def type : BitVec 16 := if f.cfg.isEntry then eventTypeFuncEntry else eventTypeFuncExit

/-- The size of the tuple, if it is there. -/
def pktSize : Nat := if f.cfg.outputPkt then sizeOfPktData else 0

/-- `buffer_sz`. -/
def size : Nat := cEvent.sizeOf + f.cfg.fnArgsBuf.toNat + f.cfg.argDataSz.toNat + f.pktSize

/-- The values of `struct event`. -/
def header : List (List Byte) :=
  [uintBytes f.type, uintBytes (BitVec.ofNat 16 cEvent.sizeOf), uintBytes (kernelTs f.ns), uintBytes f.sessionId,
    uintBytes f.funcIP, uintBytes f.cpu, uintBytes f.pid, f.comm, uintBytes f.stackId]

/-- The record, written into the memory that was reserved. -/
def emit (buffer : List Byte) : List Byte :=
  let buffer := cEvent.put f.header buffer
  let ptr := cEvent.sizeOf
  let buffer := rewrite buffer ptr f.cfg.fnArgsBuf.toNat f.fnArgs.write
  let ptr := ptr + f.cfg.fnArgsBuf.toNat
  let (buffer, ptr) :=
    if f.cfg.outputPkt then (rewrite buffer ptr sizeOfPktData f.pkt.write, ptr + sizeOfPktData) else (buffer, ptr)
  if f.cfg.outputArg then rewrite buffer ptr f.cfg.argDataSz.toNat f.argData.write else buffer

/-- The parts of the record, over the memory that was reserved. -/
def parts (buffer : List Byte) : List Byte :=
  let args := load buffer cEvent.sizeOf f.cfg.fnArgsBuf.toNat
  let pkt := load buffer (cEvent.sizeOf + f.cfg.fnArgsBuf.toNat) sizeOfPktData
  let data := load buffer (cEvent.sizeOf + f.cfg.fnArgsBuf.toNat + f.pktSize) f.cfg.argDataSz.toNat
  f.fnArgs.write args ++ (if f.cfg.outputPkt then f.pkt.write pkt else []) ++
    (if f.cfg.outputArg then f.argData.write data else [])

/-- The event user space is to see. -/
def event : Event where
  type := f.type
  kernNs := kernelTs f.ns
  sessID := f.sessionId
  funcIP := f.funcIP
  cpu := f.cpu
  pid := f.pid
  comm := goString (nullTerminated f.comm)
  stackID := f.stackId

end FuncWrite

namespace InsnWrite

def size : Nat := cInsnEvent.sizeOf

variable (x : InsnWrite)

def header : List (List Byte) :=
  [uintBytes eventTypeInsn, uintBytes (BitVec.ofNat 16 cInsnEvent.sizeOf), uintBytes (kernelTs x.ns),
    uintBytes x.sessionId, uintBytes x.insnIP, uintBytes x.cpu]

def emit (buffer : List Byte) : List Byte := cInsnEvent.put x.header buffer

def event : InsnEvent := ⟨kernelTs x.ns, x.sessionId, x.insnIP, x.cpu⟩

end InsnWrite

namespace GraphWrite

variable (g : GraphWrite)

def type : BitVec 16 := if g.entry then eventTypeGraphEntry else eventTypeGraphExit

def size : Nat := cGraphEvent.sizeOf + g.fnArgsBuf.toNat

def header : List (List Byte) :=
  [uintBytes g.type, uintBytes (BitVec.ofNat 16 g.size), uintBytes (kernelTs g.ns), uintBytes g.sessionId,
    uintBytes g.funcIP, uintBytes g.cpu, uintBytes g.depth]

def emit (buffer : List Byte) : List Byte :=
  rewrite (cGraphEvent.put g.header buffer) cGraphEvent.sizeOf g.fnArgsBuf.toNat g.fnArgs.write

/-- The arguments, over the memory that was reserved. -/
def args (buffer : List Byte) : List Byte := g.fnArgs.write (load buffer cGraphEvent.sizeOf g.fnArgsBuf.toNat)

def event : GraphEvent := ⟨kernelTs g.ns, g.sessionId, g.funcIP, g.cpu, g.depth⟩

end GraphWrite

/-- A record that a program submits. -/
inductive Submission where
  | func (f : FuncWrite)
  | insn (x : InsnWrite)
  | graph (g : GraphWrite)

namespace Submission

/-- What is reserved for it. -/
def size : Submission → Nat
  | .func f => f.size
  | .insn _ => InsnWrite.size
  | .graph g => g.size

def emit : Submission → List Byte → List Byte
  | .func f => f.emit
  | .insn x => x.emit
  | .graph g => g.emit

/-- The record `record.Handle` is to see. A graph event is read up to the
capacity of the slice. -/
def record (reserved beyond : List Byte) (found : Answers) : Submission → Record
  | .func f => .func f.event (f.parts reserved) found
  | .insn x => .insn x.event
  | .graph g => .graph (!g.entry) g.event (BitVec.ofNat 16 g.size) (g.args reserved ++ beyond)

end Submission

/-! ## What user space reads -/

/-- The slice `record.Handle` is given: the memory up to its capacity, and
its length. -/
structure Sample where
  bytes : List Byte
  len : Nat
  le : len ≤ bytes.length

/-- The part of `record.Handle` that makes an event of the bytes; `none`
where it reads memory behind the slice. -/
def readRecord (s : Sample) (found : Answers) : Option Record :=
  if s.len < 2 then none
  else
    let typ : BitVec 16 := uint 16 (load s.bytes 0 2)
    if typ = eventTypeInsn then
      if s.bytes.length < goInsnEvent.sizeOf then none
      else
        let field {w : Nat} (i : Nat) : BitVec w := field w goInsnEvent i s.bytes
        some (.insn { kernNs := field 2, sessID := field 3, insnIP := field 4, cpu := field 5 })
    else if typ = eventTypeGraphEntry ∨ typ = eventTypeGraphExit then
      if s.bytes.length < goGraphEvent.sizeOf then none
      else
        let field {w : Nat} (i : Nat) : BitVec w := field w goGraphEvent i s.bytes
        some (.graph (typ = eventTypeGraphExit)
          { kernNs := field 2, sessID := field 3, funcIP := field 4, cpu := field 5, depth := field 6 } (field 1)
          (s.bytes.drop sizeOfGraphEvent))
    else if s.len < sizeOfEvent then some .short
    else
      let field {w : Nat} (i : Nat) : BitVec w := field w goEvent i s.bytes
      some (.func
        { type := field 0
          kernNs := field 2
          sessID := field 3
          funcIP := field 4
          cpu := field 5
          pid := field 6
          comm := goString (nullTerminated (goEvent.get 7 s.bytes))
          stackID := field 8 }
        ((s.bytes.take s.len).drop sizeOfEvent) found)

/-! ## Records -/

section RoundTrip

variable {L L' : Layout} {vals : List (List Byte)} {buffer beyond : List Byte} {found : Answers}

/-- A field of a record is read as the program wrote it. -/
theorem get_of_header {bytes v : List Byte} {i : Nat} (hL : L.Aligned) (hfit : L.Fits vals)
    (hbuf : L.sizeOf ≤ buffer.length) (hbytes : bytes.take L.sizeOf = (L.put vals buffer).take L.sizeOf)
    (hsame : L'.places = L.places) (hi : vals[i]? = some v) : L'.get i bytes = v := by
  have hplaces : L'.get i bytes = L.get i bytes := by rw [Layout.get, Layout.get, hsame]
  rw [hplaces, Layout.get_congr hL hbytes, Layout.get_put hL hfit hbuf hi]

theorem field_of_get {bytes : List Byte} {w i : Nat} {x : BitVec w} (hw : 8 * (w / 8) = w)
    (h : L.get i bytes = uintBytes x) : field w L i bytes = x := by
  rw [field, h, uint_bytes hw]

/-- The type is the first field of every event. -/
theorem typ_eq (bytes : List Byte) : uint 16 (load bytes 0 2) = field 16 goEvent 0 bytes ∧
    uint 16 (load bytes 0 2) = field 16 goInsnEvent 0 bytes ∧
    uint 16 (load bytes 0 2) = field 16 goGraphEvent 0 bytes := ⟨rfl, rfl, rfl⟩

namespace FuncWrite

variable {f : FuncWrite}

theorem fits_header (f : FuncWrite) : cEvent.Fits f.header := by
  simp [Layout.Fits, header, f.length_comm, cEvent, int, array]

/-- The record has the size that its parts are laid out for. -/
theorem size_eq (f : FuncWrite) : f.size = (emitEvent f.cfg).size := by
  rw [size, emitEvent, event_sizes.1, pktSize]

/-- The memory behind the event, part by part. -/
theorem exists_parts (hbuf : buffer.length = f.size) : ∃ args pkt data : List Byte,
    buffer.drop cEvent.sizeOf = args ++ (pkt ++ data) ∧ args.length = f.cfg.fnArgsBuf.toNat ∧
      pkt.length = f.pktSize ∧ data.length = f.cfg.argDataSz.toNat := by
  have hrest : (buffer.drop cEvent.sizeOf).length = f.cfg.fnArgsBuf.toNat + f.pktSize + f.cfg.argDataSz.toNat := by
    rw [List.length_drop, hbuf, size]
    omega
  generalize buffer.drop cEvent.sizeOf = rest at hrest
  refine ⟨rest.take f.cfg.fnArgsBuf.toNat, (rest.drop f.cfg.fnArgsBuf.toNat).take f.pktSize,
    (rest.drop f.cfg.fnArgsBuf.toNat).drop f.pktSize, ?_, ?_, ?_, ?_⟩
  · rw [List.take_append_drop, List.take_append_drop]
  · rw [List.length_take]
    omega
  · rw [List.length_take, List.length_drop]
    omega
  · rw [List.length_drop, List.length_drop]
    omega

/-- The record: the header, and the parts behind it. -/
theorem emit_eq (hbuf : buffer.length = f.size) :
    f.emit buffer = (cEvent.put f.header buffer).take cEvent.sizeOf ++ f.parts buffer := by
  have hsize : cEvent.sizeOf ≤ buffer.length := by rw [hbuf, size]; omega
  obtain ⟨args, pkt, data, hrest, hargs, hpkt, hdata⟩ := exists_parts hbuf
  -- the parts of the memory are where they are loaded from
  have hload (pre v rest : List Byte) (hsplit : args ++ (pkt ++ data) = pre ++ (v ++ rest)) {n : Nat} (hn : v.length = n) :
      load buffer (cEvent.sizeOf + pre.length) n = v := by
    rw [load, ← List.drop_drop, hrest, hsplit, List.drop_left' rfl, List.take_left' hn]
  have hloadArgs : load buffer cEvent.sizeOf f.cfg.fnArgsBuf.toNat = args := hload [] args (pkt ++ data) rfl hargs
  have hloadData : load buffer (cEvent.sizeOf + f.cfg.fnArgsBuf.toNat + f.pktSize) f.cfg.argDataSz.toNat = data := by
    rw [Nat.add_assoc, ← hargs, ← hpkt, ← List.length_append]
    exact hload (args ++ pkt) data [] (by simp) hdata
  obtain ⟨head, hhead, hsplit⟩ : ∃ head, (cEvent.put f.header buffer).take cEvent.sizeOf = head ∧
      cEvent.put f.header buffer = head ++ (args ++ (pkt ++ data)) := by
    refine ⟨_, rfl, ?_⟩
    rw [← hrest, ← Layout.drop_put (by decide) f.fits_header hsize, List.take_append_drop]
  have hlen : head.length = cEvent.sizeOf := by
    rw [← hhead, List.length_take, Layout.length_put (by decide) f.fits_header hsize]
    omega
  have hargs' := f.fnArgs.length_write args hargs
  have hdata' := f.argData.length_write data hdata
  have hfn : (head ++ f.fnArgs.write args).length = cEvent.sizeOf + f.cfg.fnArgsBuf.toNat := by
    rw [List.length_append, hlen, hargs']
  have hnone (ha : f.cfg.outputArg = false) : data = [] := by
    rw [List.length_eq_zero_iff.symm, hdata, f.no_argData ha]
    rfl
  have hlast (pre : List Byte) {off : Nat} (hoff : pre.length = off) :
      (if f.cfg.outputArg then rewrite (pre ++ data) off f.cfg.argDataSz.toNat f.argData.write else pre ++ data) =
        pre ++ if f.cfg.outputArg then f.argData.write data else [] := by
    cases ha : f.cfg.outputArg with
    | false => simp [hnone ha]
    | true => exact rewrite_last hoff hdata hdata'
  rw [hhead, emit, hsplit, rewrite_append hlen hargs hargs', parts, hloadArgs, hloadData]
  cases hp : f.cfg.outputPkt with
  | false =>
    obtain rfl : pkt = [] := by
      rw [List.length_eq_zero_iff.symm, hpkt, pktSize, hp]
      rfl
    simp only [Bool.false_eq_true, if_false, List.nil_append, List.append_nil]
    rw [hlast _ hfn, List.append_assoc]
  | true =>
    have hsixteen : pkt.length = sizeOfPktData := by rw [hpkt, pktSize, hp]; rfl
    have hpkt' := f.pkt.length_write hsixteen
    have hloadPkt : load buffer (cEvent.sizeOf + f.cfg.fnArgsBuf.toNat) sizeOfPktData = pkt := by
      rw [← hargs]
      exact hload args pkt data rfl hsixteen
    simp only [if_true]
    rw [rewrite_append hfn hsixteen hpkt', hloadPkt, hlast _ (by rw [List.length_append, hfn, hpkt'])]
    simp only [List.append_assoc]

/-- The tuple of a record is what `output_pkt` made of the memory there. -/
theorem pktData_parts (hbuf : buffer.length = f.size) (hpkt : f.cfg.outputPkt = true) :
    pktData goPktData (load (f.parts buffer) f.cfg.fnArgsBuf.toNat sizeOfPktData) =
      f.pkt.output (pktData cPktData (load buffer (cEvent.sizeOf + f.cfg.fnArgsBuf.toNat) sizeOfPktData)) := by
  have hlength (off n : Nat) (h : off + n ≤ f.size) : (load buffer off n).length = n :=
    length_load (by rw [hbuf]; exact h)
  have hsize : f.size = cEvent.sizeOf + f.cfg.fnArgsBuf.toNat + f.cfg.argDataSz.toNat + sizeOfPktData := by
    rw [size, pktSize, if_pos hpkt]
  have hargs := f.fnArgs.length_write (load buffer cEvent.sizeOf f.cfg.fnArgsBuf.toNat) (hlength _ _ (by omega))
  have hold := hlength (cEvent.sizeOf + f.cfg.fnArgsBuf.toNat) sizeOfPktData (by omega)
  rw [parts, if_pos hpkt, List.append_assoc, load, List.drop_left' hargs, List.take_left' (f.pkt.length_write hold),
    f.pkt.pktData_write hold]

theorem length_emit (hbuf : buffer.length = f.size) : (f.emit buffer).length = f.size := by
  have hsize : cEvent.sizeOf ≤ buffer.length := by rw [hbuf, size]; omega
  have hlength (off n : Nat) (h : off + n ≤ f.size) : (load buffer off n).length = n :=
    length_load (by rw [hbuf]; exact h)
  have hargs := f.fnArgs.length_write (load buffer cEvent.sizeOf f.cfg.fnArgsBuf.toNat) (hlength _ _ (by rw [size]; omega))
  have hdata := f.argData.length_write _ (hlength (cEvent.sizeOf + f.cfg.fnArgsBuf.toNat + f.pktSize) _
    (by rw [size]; omega))
  have hnone (ha : f.cfg.outputArg = false) : f.cfg.argDataSz.toNat = 0 := by rw [f.no_argData ha]; rfl
  have hparts : (f.parts buffer).length = f.cfg.fnArgsBuf.toNat + f.pktSize + f.cfg.argDataSz.toNat := by
    rw [parts, List.length_append, List.length_append, hargs]
    congr 1
    · congr 1
      cases hp : f.cfg.outputPkt with
      | false => simp [pktSize, hp]
      | true =>
        have hsixteen : f.pktSize = sizeOfPktData := by rw [pktSize, if_pos hp]
        rw [if_pos rfl, hsixteen]
        exact f.pkt.length_write (hlength _ _ (by rw [size, hsixteen]; omega))
    · cases ha : f.cfg.outputArg with
      | false => simp [hnone ha]
      | true => exact hdata
  rw [emit_eq hbuf, List.length_append, List.length_take, Layout.length_put (by decide) f.fits_header hsize, hparts,
    hbuf, size]
  omega

/-- **A function event is read as it was meant.** -/
theorem readRecord_emit (hbuf : buffer.length = f.size) (hle : f.size ≤ (f.emit buffer ++ beyond).length) :
    readRecord ⟨f.emit buffer ++ beyond, f.size, hle⟩ found = some (.func f.event (f.parts buffer) found) := by
  have hsize : cEvent.sizeOf ≤ buffer.length := by rw [hbuf, size]; omega
  have hevent : sizeOfEvent ≤ f.size := by rw [size, event_sizes.1]; omega
  obtain ⟨bytes, hbytes⟩ : ∃ bytes, f.emit buffer ++ beyond = bytes := ⟨_, rfl⟩
  have hhead : ((cEvent.put f.header buffer).take cEvent.sizeOf).length = cEvent.sizeOf := by
    rw [List.length_take, Layout.length_put (by decide) f.fits_header hsize]
    omega
  have htake : bytes.take cEvent.sizeOf = (cEvent.put f.header buffer).take cEvent.sizeOf := by
    rw [← hbytes, emit_eq hbuf, List.append_assoc, List.take_left' hhead]
  have hget {v : List Byte} {i : Nat} (hi : f.header[i]? = some v) : goEvent.get i bytes = v :=
    get_of_header (by decide) f.fits_header hsize htake event_places.1 hi
  have htyp : uint 16 (load bytes 0 2) = f.type := by
    rw [(typ_eq bytes).1]
    exact field_of_get rfl (hget rfl)
  have hdata : (bytes.take f.size).drop sizeOfEvent = f.parts buffer := by
    rw [← hbytes, List.take_left' (length_emit hbuf), emit_eq hbuf]
    exact List.drop_left' hhead
  have hfunc : f.type ≠ eventTypeInsn ∧ ¬(f.type = eventTypeGraphEntry ∨ f.type = eventTypeGraphExit) := by
    unfold type
    cases f.cfg.isEntry <;> decide
  simp only [readRecord, hbytes, htyp, if_neg hfunc.1, if_neg hfunc.2]
  rw [if_neg (by rw [sizeOfEvent] at hevent; omega), if_neg (by omega), hdata]
  have hfield {w : Nat} {x : BitVec w} {i : Nat} (hw : 8 * (w / 8) = w) (hi : f.header[i]? = some (uintBytes x)) :
      field w goEvent i bytes = x := field_of_get hw (hget hi)
  rw [hfield rfl (i := 0) (x := f.type) rfl, hfield rfl (i := 2) (x := kernelTs f.ns) rfl,
    hfield rfl (i := 3) (x := f.sessionId) rfl, hfield rfl (i := 4) (x := f.funcIP) rfl,
    hfield rfl (i := 5) (x := f.cpu) rfl, hfield rfl (i := 6) (x := f.pid) rfl,
    hfield rfl (i := 8) (x := f.stackId) rfl, hget (i := 7) (v := f.comm) rfl]
  rfl

end FuncWrite

namespace InsnWrite

variable {x : InsnWrite}

theorem fits_header (x : InsnWrite) : cInsnEvent.Fits x.header := by
  simp [Layout.Fits, header, cInsnEvent, int]

theorem length_emit (hbuf : buffer.length = size) : (x.emit buffer).length = size := by
  rw [emit, Layout.length_put (by decide) x.fits_header (Nat.le_of_eq hbuf.symm), hbuf]

/-- **An instruction event is read as it was meant.** -/
theorem readRecord_emit (hbuf : buffer.length = size) (hle : size ≤ (x.emit buffer ++ beyond).length) :
    readRecord ⟨x.emit buffer ++ beyond, size, hle⟩ found = some (.insn x.event) := by
  have hsize : cInsnEvent.sizeOf ≤ buffer.length := Nat.le_of_eq hbuf.symm
  have hlen : goInsnEvent.sizeOf ≤ (x.emit buffer ++ beyond).length := hle
  obtain ⟨bytes, hbytes⟩ : ∃ bytes, x.emit buffer ++ beyond = bytes := ⟨_, rfl⟩
  have htake : bytes.take cInsnEvent.sizeOf = (cInsnEvent.put x.header buffer).take cInsnEvent.sizeOf := by
    rw [← hbytes, emit, List.take_append_of_le_length]
    rw [Layout.length_put (by decide) x.fits_header hsize]
    exact hsize
  have hfield {w : Nat} {v : BitVec w} {i : Nat} (hw : 8 * (w / 8) = w) (hi : x.header[i]? = some (uintBytes v)) :
      field w goInsnEvent i bytes = v :=
    field_of_get hw (get_of_header (by decide) x.fits_header hsize htake event_places.2.1 hi)
  have htyp : uint 16 (load bytes 0 2) = eventTypeInsn := by
    rw [(typ_eq bytes).2.1]
    exact hfield rfl rfl
  rw [hbytes] at hlen
  simp only [readRecord, hbytes, htyp, if_true]
  rw [if_neg (by decide), if_neg (by omega), hfield rfl (i := 2) (v := kernelTs x.ns) rfl,
    hfield rfl (i := 3) (v := x.sessionId) rfl, hfield rfl (i := 4) (v := x.insnIP) rfl,
    hfield rfl (i := 5) (v := x.cpu) rfl]
  rfl

end InsnWrite

namespace GraphWrite

variable {g : GraphWrite}

theorem fits_header (g : GraphWrite) : cGraphEvent.Fits g.header := by
  simp [Layout.Fits, header, cGraphEvent, int]

theorem emit_eq (hbuf : buffer.length = g.size) :
    g.emit buffer = (cGraphEvent.put g.header buffer).take cGraphEvent.sizeOf ++ g.args buffer := by
  have hsize : cGraphEvent.sizeOf ≤ buffer.length := by rw [hbuf, size]; omega
  have hput : (cGraphEvent.put g.header buffer).length = g.size := by
    rw [Layout.length_put (by decide) g.fits_header hsize, hbuf]
  have hhead : ((cGraphEvent.put g.header buffer).take cGraphEvent.sizeOf).length = cGraphEvent.sizeOf := by
    rw [List.length_take, hput, size]
    omega
  obtain ⟨old, hold⟩ : ∃ old, buffer.drop cGraphEvent.sizeOf = old := ⟨_, rfl⟩
  have hlen : old.length = g.fnArgsBuf.toNat := by
    rw [← hold, List.length_drop, hbuf, size, Nat.add_sub_cancel_left]
  have hload : load buffer cGraphEvent.sizeOf g.fnArgsBuf.toNat = old := by
    rw [load, hold, List.take_of_length_le (Nat.le_of_eq hlen)]
  have hone := rewrite_last hhead hlen (g.fnArgs.length_write old hlen)
  rw [emit, args, hload, ← hone, ← hold, ← Layout.drop_put (by decide) g.fits_header hsize, List.take_append_drop]

theorem length_emit (hbuf : buffer.length = g.size) : (g.emit buffer).length = g.size := by
  have hsize : cGraphEvent.sizeOf ≤ buffer.length := by rw [hbuf, size]; omega
  have hargs : (g.args buffer).length = g.fnArgsBuf.toNat := by
    refine g.fnArgs.length_write _ ?_
    rw [load, List.length_take, List.length_drop, hbuf, size]
    omega
  rw [emit_eq hbuf, List.length_append, List.length_take, Layout.length_put (by decide) g.fits_header hsize, hbuf,
    hargs, size]
  omega

/-- **A graph event is read as it was meant.** -/
theorem readRecord_emit (hbuf : buffer.length = g.size) (hle : g.size ≤ (g.emit buffer ++ beyond).length) :
    readRecord ⟨g.emit buffer ++ beyond, g.size, hle⟩ found =
      some (.graph (!g.entry) g.event (BitVec.ofNat 16 g.size) (g.args buffer ++ beyond)) := by
  have hsize : cGraphEvent.sizeOf ≤ buffer.length := by rw [hbuf, size]; omega
  have hlen : goGraphEvent.sizeOf ≤ (g.emit buffer ++ beyond).length :=
    Nat.le_trans (by rw [size]; exact Nat.le_add_right ..) hle
  obtain ⟨bytes, hbytes⟩ : ∃ bytes, g.emit buffer ++ beyond = bytes := ⟨_, rfl⟩
  have hhead : ((cGraphEvent.put g.header buffer).take cGraphEvent.sizeOf).length = cGraphEvent.sizeOf := by
    rw [List.length_take, Layout.length_put (by decide) g.fits_header hsize]
    omega
  have htake : bytes.take cGraphEvent.sizeOf = (cGraphEvent.put g.header buffer).take cGraphEvent.sizeOf := by
    rw [← hbytes, emit_eq hbuf, List.append_assoc, List.take_left' hhead]
  have hfield {w : Nat} {v : BitVec w} {i : Nat} (hw : 8 * (w / 8) = w) (hi : g.header[i]? = some (uintBytes v)) :
      field w goGraphEvent i bytes = v :=
    field_of_get hw (get_of_header (by decide) g.fits_header hsize htake event_places.2.2 hi)
  have htyp : uint 16 (load bytes 0 2) = g.type := by
    rw [(typ_eq bytes).2.2]
    exact hfield rfl rfl
  have hdata : bytes.drop sizeOfGraphEvent = g.args buffer ++ beyond := by
    rw [← hbytes, emit_eq hbuf, List.append_assoc]
    exact List.drop_left' hhead
  have hgraph : g.type ≠ eventTypeInsn ∧ (g.type = eventTypeGraphEntry ∨ g.type = eventTypeGraphExit) ∧
      decide (g.type = eventTypeGraphExit) = !g.entry := by
    unfold type
    cases g.entry <;> decide
  have htwo : ¬ g.size < 2 := by
    have : cGraphEvent.sizeOf = sizeOfGraphEvent := event_sizes.2.2.1
    rw [size, this, sizeOfGraphEvent]
    omega
  rw [hbytes] at hlen
  simp only [readRecord, hbytes, htyp, if_neg hgraph.1, if_pos hgraph.2.1, hgraph.2.2, hdata]
  rw [if_neg htwo, if_neg (by omega), hfield rfl (i := 1) (v := BitVec.ofNat 16 g.size) rfl,
    hfield rfl (i := 2) (v := kernelTs g.ns) rfl, hfield rfl (i := 3) (v := g.sessionId) rfl,
    hfield rfl (i := 4) (v := g.funcIP) rfl, hfield rfl (i := 5) (v := g.cpu) rfl,
    hfield rfl (i := 6) (v := g.depth) rfl]
  rfl

end GraphWrite

end RoundTrip

/-! ## A run -/

/-- A record as it comes out of the ring buffer. -/
structure Delivery where
  what : Submission
  reserved : List Byte
  beyond : List Byte
  found : Answers
  length_reserved : reserved.length = what.size

namespace Delivery

variable (d : Delivery)

theorem length_emit : (d.what.emit d.reserved).length = d.what.size := by
  have hlen := d.length_reserved
  cases hd : d.what with
  | func f => rw [hd] at hlen; exact FuncWrite.length_emit hlen
  | insn x => rw [hd] at hlen; exact InsnWrite.length_emit hlen
  | graph g => rw [hd] at hlen; exact GraphWrite.length_emit hlen

/-- The slice it is handed over in. -/
def sample : Sample where
  bytes := d.what.emit d.reserved ++ d.beyond
  len := d.what.size
  le := by
    rw [List.length_append, d.length_emit]
    omega

/-- The record that was meant. -/
def record : Record := d.what.record d.reserved d.beyond d.found

/-- What is read is what was meant. -/
theorem readRecord_sample : readRecord d.sample d.found = some d.record := by
  obtain ⟨what, reserved, beyond, found, hlen⟩ := d
  cases what with
  | func f => exact FuncWrite.readRecord_emit hlen _
  | insn x => exact InsnWrite.readRecord_emit hlen _
  | graph g => exact GraphWrite.readRecord_emit hlen _

end Delivery

/-- `Run` on the memory of the ring buffer. -/
def runSamples (h : Helpers) (limitEvents : BitVec 64) (samples : List (Sample × Answers)) : Option Result :=
  (samples.mapM fun s => readRecord s.1 s.2).map fun records => run h limitEvents (records.map Read.record)

/-- **`Run` sees the records that the programs meant**: the events do not
depend on what the ring buffer held before, the parts behind them are those
that their code left there, and no memory behind the record is read for an
event. -/
theorem runSamples_eq (h : Helpers) (limitEvents : BitVec 64) (ds : List Delivery) :
    runSamples h limitEvents (ds.map fun d => (d.sample, d.found)) =
      some (run h limitEvents (ds.map fun d => Read.record d.record)) := by
  have hread : (ds.map fun d => (d.sample, d.found)).mapM (fun s => readRecord s.1 s.2) = some (ds.map (·.record)) := by
    induction ds with
    | nil => rfl
    | cons d ds ih =>
      rw [List.map_cons, List.mapM_cons, ih]
      simp [Delivery.readRecord_sample]
  rw [runSamples, hread, Option.map_some, List.map_map]
  rfl

/-! ## Configurations -/

/-- `b2i`, and a `bool` in memory. -/
def b2i (b : Bool) : Byte := if b then 1 else 0

/-- `BpfsnoopConfig`. -/
structure GoConfig where
  flags : BitVec 32 := 0
  filterPid : BitVec 32 := 0
  fnArgsNr : BitVec 32 := 0
  withRet : Bool := false
  fnArgsBuf : BitVec 32 := 0
  argDataSz : BitVec 32 := 0

/-- `cfg.Flags |= 1 << idx`, if `v`. -/
def GoConfig.setFlag (cfg : GoConfig) (idx : Nat) (v : Bool) : GoConfig :=
  if v then { cfg with flags := cfg.flags ||| (1 : BitVec 32) <<< idx } else cfg

namespace GoConfig

def setOutputLbr (cfg : GoConfig) (v : Bool) : GoConfig := cfg.setFlag 0 v
def setOutputStack (cfg : GoConfig) (v : Bool) : GoConfig := cfg.setFlag 1 v
def setOutputPktTuple (cfg : GoConfig) (v : Bool) : GoConfig := cfg.setFlag 2 v
def setOutputArg (cfg : GoConfig) (v : Bool) : GoConfig := cfg.setFlag 3 v
def setBothEntryExit (cfg : GoConfig) (v : Bool) : GoConfig := cfg.setFlag 4 v
def setIsEntry (cfg : GoConfig) (v : Bool) : GoConfig := cfg.setFlag 5 v

def values (cfg : GoConfig) : List (List Byte) :=
  [uintBytes cfg.flags, uintBytes cfg.filterPid, uintBytes cfg.fnArgsNr, [b2i cfg.withRet], [0, 0, 0],
    uintBytes cfg.fnArgsBuf, uintBytes cfg.argDataSz]

/-- The memory of the struct, which `Variable.Set` copies. -/
def bytes (cfg : GoConfig) : List Byte := goConfig.put cfg.values (List.replicate goConfig.sizeOf 0)

end GoConfig

/-- What `setBpfsnoopConfig` is asked for. -/
structure ConfigRequest where
  filterPid : BitVec 32
  fnArgsNr : Nat
  fnArgsBufSize : Nat
  argDataSize : Nat
  lbr : Bool
  stack : Bool
  pkt : Bool
  bothEntryExit : Bool
  withRet : Bool

/-- The configuration of `setBpfsnoopConfig`. -/
def ConfigRequest.config (r : ConfigRequest) : GoConfig :=
  let cfg : GoConfig := {}
  let cfg := cfg.setOutputLbr r.lbr
  let cfg := cfg.setOutputStack r.stack
  let cfg := cfg.setOutputPktTuple r.pkt
  let cfg := cfg.setOutputArg (r.argDataSize ≠ 0)
  let cfg := cfg.setBothEntryExit r.bothEntryExit
  let cfg := cfg.setIsEntry (!r.withRet)
  { cfg with
    filterPid := r.filterPid
    fnArgsNr := BitVec.ofNat 32 r.fnArgsNr
    withRet := r.withRet
    fnArgsBuf := BitVec.ofNat 32 r.fnArgsBufSize
    argDataSz := BitVec.ofNat 32 r.argDataSize }

/-- The bit fields of `struct bpfsnoop_config`, and their widths. -/
def configBits : List (String × Nat) :=
  [("output_lbr", 1), ("output_stack", 1), ("output_pkt", 1), ("output_arg", 1), ("both_entry_exit", 1),
    ("is_entry", 1), ("pad", 26)]

/-- A bit field of a word: the first one has the low bits. -/
def bitField (bits : List (String × Nat)) (name : String) (word : BitVec 32) : Nat :=
  let before := bits.takeWhile (·.1 ≠ name)
  let width := ((bits.find? (·.1 = name)).map (·.2)).getD 0
  word.toNat >>> (before.map (·.2)).sum % 2 ^ width

/-- `cfg`, as a program reads it. -/
structure BpfConfig where
  outputLbr : Bool
  outputStack : Bool
  outputPkt : Bool
  outputArg : Bool
  bothEntryExit : Bool
  isEntry : Bool
  pid : BitVec 32
  argsNr : BitVec 32
  withRetval : Bool
  bufSize : BitVec 32
  dataSize : BitVec 32
  deriving DecidableEq

/-- The fields of `struct bpfsnoop_config` in memory. -/
def readConfig (bytes : List Byte) : BpfConfig :=
  let bit (name : String) : Bool := bitField configBits name (field 32 cConfig 0 bytes) ≠ 0
  { outputLbr := bit "output_lbr"
    outputStack := bit "output_stack"
    outputPkt := bit "output_pkt"
    outputArg := bit "output_arg"
    bothEntryExit := bit "both_entry_exit"
    isEntry := bit "is_entry"
    pid := field 32 cConfig 1 bytes
    argsNr := field 32 cConfig 2 bytes
    withRetval := field 8 cConfig 3 bytes ≠ 0
    bufSize := field 32 cConfig 5 bytes
    dataSize := field 32 cConfig 6 bytes }

/-- `bpfFgraphConfig`, with its flags as `traceGraph` sets them by `b2i`. -/
structure FgraphConfig where
  funcIP : Word
  maxDepth : BitVec 32
  entry : Bool
  tinBPF : Bool
  myPID : BitVec 32
  fnArgsNr : BitVec 32
  withRet : Bool
  fnArgsBuf : BitVec 32

def FgraphConfig.values (cfg : FgraphConfig) : List (List Byte) :=
  [uintBytes cfg.funcIP, uintBytes cfg.maxDepth, [b2i cfg.entry], [b2i cfg.tinBPF], [0, 0], uintBytes cfg.myPID,
    uintBytes cfg.fnArgsNr, [b2i cfg.withRet], [0, 0, 0], uintBytes cfg.fnArgsBuf]

def FgraphConfig.bytes (cfg : FgraphConfig) : List Byte :=
  goFgraphConfig.put cfg.values (List.replicate goFgraphConfig.sizeOf 0)

/-- The fields of `struct bpfsnoop_fgraph_configs` in memory. -/
def readFgraphConfig (bytes : List Byte) : FgraphConfig where
  funcIP := field 64 cFgraphConfig 0 bytes
  maxDepth := field 32 cFgraphConfig 1 bytes
  entry := field 8 cFgraphConfig 2 bytes ≠ 0
  tinBPF := field 8 cFgraphConfig 3 bytes ≠ 0
  myPID := field 32 cFgraphConfig 5 bytes
  fnArgsNr := field 32 cFgraphConfig 6 bytes
  withRet := field 8 cFgraphConfig 7 bytes ≠ 0
  fnArgsBuf := field 32 cFgraphConfig 9 bytes

/-- What the program has of a request: the sizes are cut to 32 bits. -/
def ConfigRequest.served (r : ConfigRequest) : BpfConfig where
  outputLbr := r.lbr
  outputStack := r.stack
  outputPkt := r.pkt
  outputArg := r.argDataSize ≠ 0
  bothEntryExit := r.bothEntryExit
  isEntry := !r.withRet
  pid := r.filterPid
  argsNr := BitVec.ofNat 32 r.fnArgsNr
  withRetval := r.withRet
  bufSize := BitVec.ofNat 32 r.fnArgsBufSize
  dataSize := BitVec.ofNat 32 r.argDataSize

/-- The part of the configuration that decides on the layout of a record. -/
def BpfConfig.layout (cfg : BpfConfig) : BpfsnoopConfig where
  outputPkt := cfg.outputPkt
  outputArg := cfg.outputArg
  isEntry := cfg.isEntry
  fnArgsBuf := cfg.bufSize
  argDataSz := cfg.dataSize

/-- A bit field of one bit is that bit. -/
theorem bitField_one {name : String} {i : Nat} (word : BitVec 32)
    (hbefore : ((configBits.takeWhile (·.1 ≠ name)).map (·.2)).sum = i)
    (hwidth : ((configBits.find? (·.1 = name)).map (·.2)).getD 0 = 1) :
    decide (bitField configBits name word ≠ 0) = word.getLsbD i := by
  rw [bitField, hbefore, hwidth, BitVec.getLsbD, Nat.testBit_eq_decide_div_mod_eq, Nat.shiftRight_eq_div_pow, Nat.pow_one]
  have hlt := Nat.mod_lt (word.toNat / 2 ^ i) (show 0 < 2 by decide)
  congr 1
  simp only [eq_iff_iff]
  omega

theorem getLsbD_setFlag (cfg : GoConfig) {idx : Nat} (v : Bool) (i : Nat) (hidx : idx < 32) :
    (cfg.setFlag idx v).flags.getLsbD i = (cfg.flags.getLsbD i || (v && decide (idx = i))) := by
  cases v with
  | false => simp [GoConfig.setFlag]
  | true =>
    have hbit : (decide (i < 32) && !decide (i < idx) && decide (i - idx = 0)) = decide (idx = i) := by
      rw [Bool.eq_iff_iff]
      simp only [Bool.and_eq_true, Bool.not_eq_true', decide_eq_true_eq, decide_eq_false_iff_not]
      omega
    simp [GoConfig.setFlag, hbit]

/-- The fields of a configuration, as the program reads them. -/
theorem GoConfig.get_bytes (cfg : GoConfig) {i : Nat} {v : List Byte} (hi : cfg.values[i]? = some v) :
    cConfig.get i cfg.bytes = v :=
  get_of_header (by decide) (by simp [Layout.Fits, values, goConfig, int, array]) (by simp) rfl config_places.1 hi

theorem FgraphConfig.get_bytes (cfg : FgraphConfig) {i : Nat} {v : List Byte} (hi : cfg.values[i]? = some v) :
    cFgraphConfig.get i cfg.bytes = v :=
  get_of_header (by decide) (by simp [Layout.Fits, values, goFgraphConfig, int, array]) (by simp) rfl config_places.2 hi

/-- A flag in a byte. -/
theorem field_b2i {L : Layout} {i : Nat} {bytes : List Byte} {b : Bool} (h : L.get i bytes = [b2i b]) :
    decide (field 8 L i bytes ≠ 0) = b := by
  rw [field, h]
  cases b <;> rfl

theorem fgraphConfig_roundTrip (cfg : FgraphConfig) : readFgraphConfig cfg.bytes = cfg := by
  have hget := @FgraphConfig.get_bytes cfg
  have hip : field 64 cFgraphConfig 0 cfg.bytes = cfg.funcIP := field_of_get rfl (hget rfl)
  have hdepth : field 32 cFgraphConfig 1 cfg.bytes = cfg.maxDepth := field_of_get rfl (hget rfl)
  have hentry : decide (field 8 cFgraphConfig 2 cfg.bytes ≠ 0) = cfg.entry := field_b2i (hget rfl)
  have htin : decide (field 8 cFgraphConfig 3 cfg.bytes ≠ 0) = cfg.tinBPF := field_b2i (hget rfl)
  have hpid : field 32 cFgraphConfig 5 cfg.bytes = cfg.myPID := field_of_get rfl (hget rfl)
  have hnr : field 32 cFgraphConfig 6 cfg.bytes = cfg.fnArgsNr := field_of_get rfl (hget rfl)
  have hret : decide (field 8 cFgraphConfig 7 cfg.bytes ≠ 0) = cfg.withRet := field_b2i (hget rfl)
  have hbuf : field 32 cFgraphConfig 9 cfg.bytes = cfg.fnArgsBuf := field_of_get rfl (hget rfl)
  rw [readFgraphConfig, hip, hdepth, hentry, htin, hpid, hnr, hret, hbuf]

/-- **The programs have the configurations they were given**: what a bit
field of the C struct says is what user space set by its index, and the
layout of the records is the one user space reads them by. -/
theorem config_roundTrip (r : ConfigRequest) (cfg : FgraphConfig) : readConfig r.config.bytes = r.served ∧
    r.served.layout = setBpfsnoopConfig r.fnArgsBufSize r.argDataSize r.pkt r.withRet ∧
    readFgraphConfig cfg.bytes = cfg := by
  refine ⟨?_, rfl, fgraphConfig_roundTrip cfg⟩
  have hget := @GoConfig.get_bytes r.config
  have hflags : field 32 cConfig 0 r.config.bytes = r.config.flags := field_of_get rfl (hget rfl)
  have hret : decide (field 8 cConfig 3 r.config.bytes ≠ 0) = r.withRet := field_b2i (hget rfl)
  have hbit {name : String} {i : Nat} {v : Bool} (hbefore : ((configBits.takeWhile (·.1 ≠ name)).map (·.2)).sum = i)
      (hwidth : ((configBits.find? (·.1 = name)).map (·.2)).getD 0 = 1) (hv : r.config.flags.getLsbD i = v) :
      decide (bitField configBits name (field 32 cConfig 0 r.config.bytes) ≠ 0) = v := by
    rw [hflags, bitField_one _ hbefore hwidth, hv]
  have hset (i : Nat) : r.config.flags.getLsbD i = (r.lbr && decide (0 = i) || r.stack && decide (1 = i) ||
      r.pkt && decide (2 = i) || decide (r.argDataSize ≠ 0) && decide (3 = i) || r.bothEntryExit && decide (4 = i) ||
      !r.withRet && decide (5 = i)) := by
    simp only [ConfigRequest.config, GoConfig.setOutputLbr, GoConfig.setOutputStack, GoConfig.setOutputPktTuple,
      GoConfig.setOutputArg, GoConfig.setBothEntryExit, GoConfig.setIsEntry]
    rw [getLsbD_setFlag _ _ _ (by decide), getLsbD_setFlag _ _ _ (by decide), getLsbD_setFlag _ _ _ (by decide),
      getLsbD_setFlag _ _ _ (by decide), getLsbD_setFlag _ _ _ (by decide), getLsbD_setFlag _ _ _ (by decide)]
    simp
  have hpid : field 32 cConfig 1 r.config.bytes = r.filterPid := field_of_get rfl (hget rfl)
  have hnr : field 32 cConfig 2 r.config.bytes = BitVec.ofNat 32 r.fnArgsNr := field_of_get rfl (hget rfl)
  have hbuf : field 32 cConfig 5 r.config.bytes = BitVec.ofNat 32 r.fnArgsBufSize := field_of_get rfl (hget rfl)
  have hdata : field 32 cConfig 6 r.config.bytes = BitVec.ofNat 32 r.argDataSize := field_of_get rfl (hget rfl)
  simp only [readConfig, ConfigRequest.served, BpfConfig.mk.injEq]
  exact ⟨hbit (i := 0) rfl rfl (by rw [hset]; simp), hbit (i := 1) rfl rfl (by rw [hset]; simp),
    hbit (i := 2) rfl rfl (by rw [hset]; simp), hbit (i := 3) rfl rfl (by rw [hset]; simp),
    hbit (i := 4) rfl rfl (by rw [hset]; simp), hbit (i := 5) rfl rfl (by rw [hset]; simp),
    hpid, hnr, hret, hbuf, hdata⟩

end Bpfsnoop.Trace.EventLoop.Wire
