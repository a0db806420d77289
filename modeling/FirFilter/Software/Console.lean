import FirFilter.Hardware.JtagUart
import FirFilter.Lib.RingBuffer
/-!
# FirFilter.Software.Console

The driver of the JTAG UART, through which `main.c` prints and reads the names of its files.

Two ring buffers lie between the calls of the program and the interrupt routine, and the
device between the interrupt routine and the host. While the interrupt routine runs nothing
else does, so it is a program on the bus. It may come between any two accesses of a call to
what both share, so a call is a machine that makes one such access in a step; only where
interrupts are disabled a step is longer. `Reaches` are the states of all these runs.
-/

namespace FirFilter.Software

open Clocked BusMaster Hardware

/-- `ALTERA_AVALON_JTAG_UART_BUF_LEN` -/
def bufLen : ℕ := 2048

/-- `INT_MAX` -/
def intMax : ℕ := 2 ^ 31 - 1

/-- `EIO` -/
def eio : ℤ := 5

/-- `_alt_tick_rate`: there is no system clock. -/
def altTickRate : ℕ := 0

/-! ### The bits of the registers -/

def reMsk : BitVec 32 := 0x1
def weMsk : BitVec 32 := 0x2
def riMsk : BitVec 32 := 0x100
def wiMsk : BitVec 32 := 0x200
def dataMsk : BitVec 32 := 0xFF
def rvalidMsk : BitVec 32 := 0x8000
def ravailMsk : BitVec 32 := 0xFFFF0000
def wspaceMsk : BitVec 32 := 0xFFFF0000

/-- `altera_avalon_jtag_uart_state`, as it is initialised statically. -/
structure JtagUartState where
  timeout : ℕ := 10
  irqEnable : BitVec 32 := 0
  hostInactive : ℕ := 0
  rxIn : ℕ := 0
  rxOut : ℕ := 0
  txIn : ℕ := 0
  txOut : ℕ := 0
  rxBuf : ℕ → BitVec 8 := fun _ => 0
  txBuf : ℕ → BitVec 8 := fun _ => 0

/-- A program on the bus of the JTAG UART, where address `1` is the control register. -/
abbrev Uart := Program Bool (BitVec 32)

/-- `IORD_ALTERA_AVALON_JTAG_UART_CONTROL` -/
def iordControl : Uart (BitVec 32) := readWord true

/-- `IOWR_ALTERA_AVALON_JTAG_UART_CONTROL` -/
def iowrControl (v : BitVec 32) : Uart Unit := writeWord true v

/-- `IORD_ALTERA_AVALON_JTAG_UART_DATA` -/
def iordData : Uart (BitVec 32) := readWord false

/-- `IOWR_ALTERA_AVALON_JTAG_UART_DATA` -/
def iowrData (v : BitVec 32) : Uart Unit := writeWord false v

/-- `altera_avalon_jtag_uart_init`: without a system clock the alarm cannot be set, and the
host is taken to be present. -/
def jtagUartInit : Uart JtagUartState := do
  let sp : JtagUartState := { irqEnable := reMsk }
  iowrControl sp.irqEnable
  return { sp with
    hostInactive := 0
    timeout := if altTickRate = 0 then intMax else sp.timeout }

namespace JtagUartState

/-! ### The interrupt routine -/

/-- Put the byte of the data register into the ring. -/
def store (sp : JtagUartState) (data : BitVec 32) : JtagUartState := { sp with
  rxBuf := Function.update sp.rxBuf sp.rxIn ((data &&& dataMsk).setWidth 8)
  rxIn := (sp.rxIn + 1) % bufLen }

/-- The loop of a read interrupt. Every turn fills a slot of the ring, so it ends before
`bufLen` turns. -/
def receive : ℕ → JtagUartState → BitVec 32 → Uart (JtagUartState × BitVec 32)
  | 0, sp, data => return (sp, data)
  | fuel + 1, sp, data =>
      if (sp.rxIn + 1) % bufLen = sp.rxOut then return (sp, data)
      else do
        let data ← iordData
        if data &&& rvalidMsk = 0 then return (sp, data)
        else receive fuel (sp.store data) data

/-- Process a read interrupt. -/
def processRead (sp : JtagUartState) : Uart JtagUartState := do
  let (sp, data) ← receive bufLen sp (1 <<< 16)
  if data &&& ravailMsk = 0 then return sp
  else
    let sp := { sp with irqEnable := sp.irqEnable &&& ~~~reMsk }
    iowrControl sp.irqEnable
    let _ ← iordControl
    return sp

/-- The loop of a write interrupt, with the space that is left. -/
def transmit : ℕ → JtagUartState → Uart (JtagUartState × ℕ)
  | 0, sp => return (sp, 0)
  | space + 1, sp =>
      if sp.txOut = sp.txIn then return (sp, space + 1)
      else do
        iowrData ((sp.txBuf sp.txOut).signExtend 32)
        transmit space { sp with txOut := (sp.txOut + 1) % bufLen }

/-- Process a write interrupt. -/
def processWrite (control : BitVec 32) (sp : JtagUartState) : Uart JtagUartState := do
  let (sp, space) ← transmit ((control &&& wspaceMsk) >>> 16).toNat sp
  if space = 0 then return sp
  else
    let sp := { sp with irqEnable := sp.irqEnable &&& ~~~weMsk }
    iowrControl sp.irqEnable
    let _ ← iordControl
    return sp

/-- One turn of the loop of `altera_avalon_jtag_uart_irq`; `none` once there is nothing more
to do. -/
def irqTurn (sp : JtagUartState) : Uart (Option JtagUartState) := do
  let control ← iordControl
  if control &&& (riMsk ||| wiMsk) = 0 then return none
  else
    let sp ← (if control &&& riMsk = 0 then pure sp else sp.processRead)
    let sp ← (if control &&& wiMsk = 0 then pure sp else sp.processWrite control)
    return some sp

end JtagUartState

/-- `altera_avalon_jtag_uart_irq` runs from cycle `n` to cycle `m`. -/
inductive Irq (F : Fifo (BitVec 8)) (inp : ℕ → UartPins) :
    JtagUartState → ℕ → JtagUartState → ℕ → Prop
  | stop {sp : JtagUartState} {n m : ℕ}
      (h : Runs (uartBus F) ({}, {}) inp sp.irqTurn n none m) : Irq F inp sp n sp m
  | turn {sp sp' sp'' : JtagUartState} {n j m : ℕ}
      (h : Runs (uartBus F) ({}, {}) inp sp.irqTurn n (some sp') j)
      (hnext : Irq F inp sp' j sp'' m) : Irq F inp sp n sp'' m

/-! ### The calls -/

/-- Where `altera_avalon_jtag_uart_write` is. -/
inductive WritePc
  | loadIn
  | loadOut
  | copy
  | publish
  | kick
  | spin
  | recheck
  | ret
  deriving DecidableEq

/-- The locals of `altera_avalon_jtag_uart_write`, with the bytes from `start` and from
`ptr`, and how many of them `memcpy` has copied. -/
structure WriteCall where
  pc : WritePc
  start : List (BitVec 8)
  ptr : List (BitVec 8)
  inn : ℕ := 0
  out : ℕ := 0
  n : ℕ := 0
  copied : ℕ := 0

namespace WriteCall

/-- The call, with `count` bytes. -/
def call (start : List (BitVec 8)) : WriteCall where
  pc := if 0 < start.length then .loadIn else .kick
  start := start
  ptr := start

/-- The space up to the end of the buffer. -/
def space (inn out : ℕ) : ℕ :=
  if inn < out then out - 1 - inn else if 0 < out then bufLen - inn else bufLen - 1 - inn

/-- The next access to what the interrupt routine shares. -/
def step (c : WriteCall) (sp : JtagUartState) : Uart (WriteCall × JtagUartState) :=
  match c.pc with
  | .loadIn => return ({ c with pc := .loadOut, inn := sp.txIn }, sp)
  | .loadOut =>
      let out := sp.txOut
      let n := space c.inn out
      if n = 0 then return ({ c with pc := .kick, out := out, n := n }, sp)
      else
        let n := if c.ptr.length < n then c.ptr.length else n
        return ({ c with pc := .copy, out := out, n := n, copied := 0 }, sp)
  | .copy =>
      if c.copied < c.n then
        return ({ c with copied := c.copied + 1 }, { sp with
          txBuf := Function.update sp.txBuf (c.inn + c.copied) (c.ptr.getD c.copied 0) })
      else return ({ c with pc := .publish }, sp)
  | .publish =>
      let ptr := c.ptr.drop c.n
      return ({ c with pc := if 0 < ptr.length then .loadIn else .kick, ptr := ptr },
        { sp with txIn := (c.inn + c.n) % bufLen })
  -- interrupts are disabled
  | .kick => do
      let sp := { sp with irqEnable := sp.irqEnable ||| weMsk }
      iowrControl sp.irqEnable
      return ({ c with pc := if 0 < c.ptr.length then .spin else .ret }, sp)
  | .spin =>
      if c.out = sp.txOut ∧ sp.hostInactive < sp.timeout then return (c, sp)
      else return ({ c with pc := .recheck }, sp)
  | .recheck => return ({ c with pc := if c.out = sp.txOut then .ret else .loadIn }, sp)
  | .ret => return (c, sp)

def result (c : WriteCall) : ℤ :=
  if c.ptr.length ≠ c.start.length then c.start.length - c.ptr.length else -eio

end WriteCall

/-- Where `altera_avalon_jtag_uart_read` is. -/
inductive ReadPc
  | loadIn
  | loadOut
  | copy
  | publish
  | spin
  | recheck
  | kick
  | ret
  deriving DecidableEq

/-- The locals of `altera_avalon_jtag_uart_read`: the bytes from `buffer` to `ptr`, and
behind `ptr` those that `memcpy` has copied. -/
structure ReadCall where
  pc : ReadPc
  asked : ℕ
  space : ℕ
  buffer : List (BitVec 8) := []
  copied : List (BitVec 8) := []
  inn : ℕ := 0
  out : ℕ := 0
  n : ℕ := 0

namespace ReadCall

def call (space : ℕ) : ReadCall where
  pc := if 0 < space then .loadIn else .ret
  asked := space
  space := space

/-- The data up to the end of the buffer. -/
def available (inn out : ℕ) : ℕ := if out ≤ inn then inn - out else bufLen - out

/-- Behind the copying loop: what was read is returned, or else there is nothing yet. -/
def leave (c : ReadCall) : ReadPc := if c.buffer ≠ [] then .kick else .spin

/-- The next access to what the interrupt routine shares. -/
def step (c : ReadCall) (sp : JtagUartState) : Uart (ReadCall × JtagUartState) :=
  match c.pc with
  | .loadIn => return ({ c with pc := .loadOut, inn := sp.rxIn }, sp)
  | .loadOut =>
      let out := sp.rxOut
      let n := available c.inn out
      if n = 0 then return ({ c with pc := c.leave, out := out, n := n }, sp)
      else
        let n := if c.space < n then c.space else n
        return ({ c with pc := .copy, out := out, n := n, copied := [] }, sp)
  | .copy =>
      if c.copied.length < c.n then
        return ({ c with copied := c.copied ++ [sp.rxBuf (c.out + c.copied.length)] }, sp)
      else return ({ c with pc := .publish }, sp)
  | .publish =>
      let c := { c with buffer := c.buffer ++ c.copied, space := c.space - c.n, copied := [] }
      return ({ c with pc := if 0 < c.space then .loadIn else c.leave },
        { sp with rxOut := (c.out + c.n) % bufLen })
  | .spin =>
      if c.inn = sp.rxIn ∧ sp.hostInactive < sp.timeout then return (c, sp)
      else return ({ c with pc := .recheck }, sp)
  | .recheck => return ({ c with pc := if c.inn = sp.rxIn then .ret else .loadIn }, sp)
  -- interrupts are disabled
  | .kick => do
      let sp := { sp with irqEnable := sp.irqEnable ||| reMsk }
      iowrControl sp.irqEnable
      return ({ c with pc := .ret }, sp)
  | .ret => return (c, sp)

def result (c : ReadCall) : ℤ := if c.buffer ≠ [] then c.buffer.length else -eio

end ReadCall

/-! ### The runs -/

/-- What the program is doing: it is in `main`, or in a call. -/
inductive Thread
  | main
  | writing (c : WriteCall)
  | reading (c : ReadCall)

/-- The calls so far: all bytes passed to a write and all delivered by a read, and what
each call was asked for and has returned. -/
structure Calls where
  passed : List (BitVec 8) := []
  delivered : List (BitVec 8) := []
  writes : List (ℕ × ℤ) := []
  reads : List (ℕ × ℤ) := []

/-- In cycle `n` the program can be at `t`, with the driver in state `sp`. -/
inductive Reaches (F : Fifo (BitVec 8)) (inp : ℕ → UartPins) :
    ℕ → Thread → JtagUartState → Calls → Prop
  | init {sp : JtagUartState} {m : ℕ} (h : Runs (uartBus F) ({}, {}) inp jtagUartInit 0 sp m) :
      Reaches F inp m .main sp {}
  | wait {n : ℕ} {t : Thread} {sp : JtagUartState} {l : Calls} (h : Reaches F inp n t sp l)
      (hidle : (uartBus F).Idle (inp n)) : Reaches F inp (n + 1) t sp l
  | interrupt {n m : ℕ} {t : Thread} {sp sp' : JtagUartState} {l : Calls}
      (h : Reaches F inp n t sp l) (hirq : Irq F inp sp n sp' m) : Reaches F inp m t sp' l
  | write {n : ℕ} {sp : JtagUartState} {l : Calls} (h : Reaches F inp n .main sp l)
      (bytes : List (BitVec 8)) :
      Reaches F inp n (.writing (.call bytes)) sp { l with passed := l.passed ++ bytes }
  | writeStep {n m : ℕ} {c c' : WriteCall} {sp sp' : JtagUartState} {l : Calls}
      (h : Reaches F inp n (.writing c) sp l)
      (hstep : Runs (uartBus F) ({}, {}) inp (c.step sp) n (c', sp') m) :
      Reaches F inp m (.writing c') sp' l
  | writeReturn {n : ℕ} {c : WriteCall} {sp : JtagUartState} {l : Calls}
      (h : Reaches F inp n (.writing c) sp l) (hpc : c.pc = .ret) :
      Reaches F inp n .main sp { l with writes := l.writes ++ [(c.start.length, c.result)] }
  | read {n : ℕ} {sp : JtagUartState} {l : Calls} (h : Reaches F inp n .main sp l)
      (space : ℕ) : Reaches F inp n (.reading (.call space)) sp l
  | readStep {n m : ℕ} {c c' : ReadCall} {sp sp' : JtagUartState} {l : Calls}
      (h : Reaches F inp n (.reading c) sp l)
      (hstep : Runs (uartBus F) ({}, {}) inp (c.step sp) n (c', sp') m) :
      Reaches F inp m (.reading c') sp' l
  | readReturn {n : ℕ} {c : ReadCall} {sp : JtagUartState} {l : Calls}
      (h : Reaches F inp n (.reading c) sp l) (hpc : c.pc = .ret) :
      Reaches F inp n .main sp { l with
        delivered := l.delivered ++ c.buffer
        reads := l.reads ++ [(c.asked, c.result)] }

end FirFilter.Software
