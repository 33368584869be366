import Mathlib.Algebra.Ring.Nat
import Mathlib.Data.List.Basic
import Mathlib.Logic.Function.Basic
import Oxbow.Lib.Run

/-! `nvme_submit_bio_inline`: a list of BIOs is cut into NVMe read commands, each in a slot
of the worker's sequence pool, while completions arrive in any order. Between two polls
the call runs alone, so a step is one filling of the queue or one poll. -/
namespace Oxbow.Daemon.InlineRead

open Oxbow.Lib

def pageSize : Nat := 4096

structure Bio where
  start : Nat
  vtotal : Nat
  positive : 0 < vtotal
  short : vtotal < 2^16

structure Config where
  capacity : Nat
  hasSlot : 0 < capacity
  maxIo : Nat
  pageFits : pageSize ≤ maxIo
  nvmeTargetQd : Int
  bios : List Bio

def Config.targetQd (cfg : Config) : Nat :=
  if cfg.nvmeTargetQd ≤ 0 ∨ (cfg.capacity : Int) < cfg.nvmeTargetQd then cfg.capacity
  else cfg.nvmeTargetQd.toNat

structure Segment where
  bio : Nat
  start : Nat
  nr : Nat
  deriving DecidableEq, Repr

structure Command extends Segment where
  slot : Nat
  deriving DecidableEq, Repr

structure Seqs where
  head : Nat
  used : Nat
  busy : Nat → Bool

inductive Pc
  | submitting
  | polling
  | returned
  deriving DecidableEq, Repr

structure State where
  pc : Pc
  idx : Nat
  inflight : Nat
  pending : Option (Nat × Nat)
  seqs : Seqs
  outstanding : List Command
  submitted : List Command
  vcnt : Nat → UInt16
  ended : List Nat

variable (cfg : Config)

def start (head : Fin cfg.capacity) : State where
  pc := .submitting
  idx := 0
  inflight := 0
  pending := none
  seqs := ⟨head,0,fun _ => false⟩
  outstanding := []
  submitted := []
  vcnt i := UInt16.ofNat ((cfg.bios[i]?.map Bio.vtotal).getD 0)
  ended := []

def seqsIdxAdvance (idx : Nat) : Nat :=
  if cfg.capacity ≤ idx + 1 then idx + 1 - cfg.capacity else idx + 1

def nvmeSeqsTryAcquireOne (q : Seqs) : Option (Nat × Seqs) :=
  if cfg.capacity - q.used < 1 then none
  else if q.busy q.head then none
  else some (q.head,⟨seqsIdxAdvance cfg q.head,q.used + 1,Function.update q.busy q.head true⟩)

def nvmeSeqsRelease (q : Seqs) (slot : Nat) : Seqs :=
  if q.used = 0 then q else { q with used := q.used - 1, busy := Function.update q.busy slot false }

def packed (maxIo : Nat) : (left bytes : Nat) → Nat
  | 0, _ => 0
  | left + 1, bytes => if bytes + pageSize ≤ maxIo then packed maxIo left (bytes + pageSize) + 1 else 0

def Config.nextSegment (i : Nat) (b : Bio) (off : Nat) : Segment :=
  ⟨i,b.start + off,packed cfg.maxIo (b.vtotal - off) 0⟩

def submitSegment (i : Nat) (b : Bio) (off : Nat) (s : State) : Option State :=
  match nvmeSeqsTryAcquireOne cfg s.seqs with
  | none => none
  | some (slot,seqs) =>
    let c : Command := ⟨cfg.nextSegment i b off,slot⟩
    some { s with
      seqs := seqs
      outstanding := s.outstanding ++ [c]
      submitted := s.submitted ++ [c]
      pending := if off + c.nr < b.vtotal then some (i,off + c.nr) else none }

/-- The loop, with the number of commands it submits. Each round takes at least a page, so
as many rounds as there are pages left are enough. -/
def submitSegments (i : Nat) (b : Bio) : (rounds off : Nat) → State → Nat × State
  | 0, _, s => (0,s)
  | rounds + 1, off, s =>
    match submitSegment cfg i b off s with
    | none => (0,s)
    | some t =>
      match t.pending with
      | none => (1,t)
      | some (_,off) =>
        let r := submitSegments i b rounds off t
        (r.1 + 1,r.2)

def resume (i off : Nat) (s : State) : Nat × State :=
  match cfg.bios[i]? with
  | none => (0,s)
  | some b => submitSegments cfg i b (b.vtotal - off) off s

def nvmeRdSubmitBioOne (bio : Option Nat) (s : State) : Nat × State :=
  match s.pending with
  | some (i,off) => resume cfg i off s
  | none =>
    match bio with
    | none => (0,s)
    | some i => resume cfg i 0 { s with pending := some (i,0) }

def submitNext (s : State) : Nat × State :=
  if s.pending.isSome then nvmeRdSubmitBioOne cfg none s
  else if s.idx < cfg.bios.length then
    let r := nvmeRdSubmitBioOne cfg (some s.idx) s
    (r.1,if r.2.pending = none then { r.2 with idx := r.2.idx + 1 } else r.2)
  else (0,s)

def topUp : (rounds : Nat) → State → State
  | 0, s => s
  | rounds + 1, s =>
    if s.inflight < cfg.targetQd then
      let r := submitNext cfg s
      if r.1 = 0 then r.2 else topUp rounds { r.2 with inflight := r.2.inflight + r.1 }
    else s

def readComplete (s : State) (slot : Nat) : Option State :=
  match s.outstanding.find? fun c => c.slot = slot with
  | none => none
  | some c =>
    let left := s.vcnt c.bio - UInt16.ofNat c.nr
    some { s with
      outstanding := s.outstanding.erase c
      seqs := nvmeSeqsRelease s.seqs slot
      vcnt := Function.update s.vcnt c.bio left
      ended := if left = 0 then s.ended ++ [c.bio] else s.ended }

def readCompletes (s : State) : List Nat → Option State
  | [] => some s
  | slot :: slots => (readComplete s slot).bind fun t => readCompletes t slots

inductive Act
  | fill
  | poll (slots : List Nat)
  deriving DecidableEq, Repr

section

variable (s : State)

def settle : State :=
  if s.inflight = 0 ∧ s.idx = cfg.bios.length ∧ s.pending = none then { s with pc := .returned }
  else if 0 < s.inflight then { s with pc := .polling }
  else s

def fill : State := settle cfg (topUp cfg (cfg.targetQd - s.inflight) s)

def State.fills : Bool :=
  s.inflight = 0 ∨ (s.inflight < cfg.targetQd ∧ (s.idx < cfg.bios.length ∨ s.pending.isSome))

theorem State.fills_iff : s.fills cfg = true ↔
    s.inflight = 0 ∨ (s.inflight < cfg.targetQd ∧ (s.idx < cfg.bios.length ∨ s.pending.isSome)) :=
  decide_eq_true_iff

/-- A poll that finds no completion is not a step: it is made again with the queue already filled. -/
def poll (slots : List Nat) : Option State :=
  if slots = [] then none
  else
    (readCompletes s slots).map fun t =>
      let t := { t with inflight := t.inflight - slots.length }
      { t with pc := if t.fills cfg then .submitting else .polling }

def step : Act → Option State
  | .fill => if s.pc = .submitting then some (fill cfg s) else none
  | .poll slots => if s.pc = .polling then poll cfg s slots else none

end

def Segment.covers (i address : Nat) (g : Segment) : Bool :=
  g.bio = i ∧ g.start ≤ address ∧ address < g.start + g.nr

def pageReads (i address : Nat) (s : State) : Nat :=
  s.submitted.countP fun c => c.toSegment.covers i address

/-- The call has returned with nothing parked and every slot free, having read every page
of every BIO in exactly one command and called `end_io` of every BIO exactly once. -/
structure ReadOnce (s : State) : Prop where
  returned : s.pc = .returned
  nothingPending : s.pending = none
  slotsFree : s.seqs.used = 0 ∧ ∀ slot, s.seqs.busy slot = false
  once : ∀ i b, cfg.bios[i]? = some b →
    (∀ page, page < b.vtotal → pageReads i (b.start + page) s = 1) ∧ s.ended.count i = 1

end Oxbow.Daemon.InlineRead
