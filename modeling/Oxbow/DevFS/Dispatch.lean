import Mathlib.Data.Nat.Basic
import Mathlib.Logic.Function.Basic
import Oxbow.DevFS.Bio
import Oxbow.Lib.Extent
import Oxbow.Lib.Run

/-! `nvmf_dispatch_io_fast` and the `nvmf_poll_complete_fast` after it. Each bio is cut up into commands of the largest size; the
completions, of this call and of earlier ones, are found by the polls of either function, in any order and in any batches. -/
namespace Oxbow.DevFS.Dispatch

open Oxbow.Lib List

def sectorSize : Nat := 512
def sectorsPerBlock : Nat := blockSize / sectorSize

/-- `OXBOW_MAX_DEV_SIZE` in blocks; the LBAs of a device of 2 TB have 32 bits. -/
def maxDevBlks : Nat := 2 * 1024 * 1024 * 1024 * 1024 / blockSize

def baddrToLba (baddr : Nat) : Nat := u32 (baddr * sectorsPerBlock)
def byteToLbaCnt (size : Nat) : Nat := u32 ((size + sectorSize - 1) / sectorSize)

/-- What the controller supports and what is configured. `get_max_io_size` counts sectors in 32 bits; half of the requests of a
queue pair are asserted to be some. -/
structure Config where
  maxIoSize : Nat
  maxIoQueueRequests : Nat
  nvmfMaxInflightPerQpair : Int
  positive : 0 < maxIoSize
  whole : blockSize ∣ maxIoSize
  sectors : maxIoSize / sectorSize < 2^32
  requests : 0 < maxIoQueueRequests / 2

def Config.inflightCap (c : Config) : Nat :=
  let defaultCap := c.maxIoQueueRequests / 2
  if c.nvmfMaxInflightPerQpair ≤ 0 then defaultCap
  else if c.nvmfMaxInflightPerQpair.toNat < defaultCap then c.nvmfMaxInflightPerQpair.toNat
  else defaultCap

/-- The arguments. A buffer of the caller comes with one bio and is never read into. -/
structure Request where
  bl : List Bio
  isRead : Bool
  customBuf : Bool
  single : customBuf = true → bl.length ≤ 1
  written : customBuf = true → isRead = false
  onDevice : ∀ b ∈ bl, b.blkNo + b.nBlks ≤ maxDevBlks

def bvLen (b : Bio) : Nat := b.nBlks * blockSize

def bioReqCnt (c : Config) (b : Bio) : Nat := (bvLen b + c.maxIoSize - 1) / c.maxIoSize

/-- A command as it is submitted: its task is that of the bio with this index, and its payload begins so many bytes behind the
start of the buffer of that task. -/
structure Command where
  task : Nat
  payloadBuf : Nat
  lba : Nat
  lbaCnt : Nat
  deriving DecidableEq, Repr

structure Transfer where
  task : Nat
  offset : Nat
  lba : Nat
  deriving DecidableEq, Repr

def Command.transfers (d : Command) : List Transfer :=
  (List.range (d.lbaCnt / sectorsPerBlock)).map fun j => ⟨d.task,d.payloadBuf + j * blockSize,d.lba + j * sectorsPerBlock⟩

def bioTransfers (i : Nat) (b : Bio) : List Transfer :=
  (List.range b.nBlks).map fun j => ⟨i,j * blockSize,(b.blkNo + j) * sectorsPerBlock⟩

def Request.transfers (r : Request) : List Transfer := (r.bl.mapIdx bioTransfers).flatten

structure Task where
  bioSubmitCnt : Nat
  bioCmplCnt : Nat
  deriving DecidableEq, Repr

/-- Where the thread is: at the next bio, at the head of the loop over its bytes, in the loop that waits for the cap, at `retry`,
after a command has been refused, in the loop of the poll, in its single round for no request, and behind the poll. -/
inductive Pc
  | bios
  | filling
  | full
  | retry
  | refused
  | polling
  | pollingOnce
  | returned
  | aborted
  deriving DecidableEq, Repr

/-- The variables of the two functions, the counters of the queue pair, the task of every command that has not completed yet
(none for a command of an earlier call), the commands submitted, and the tasks, with the ones that have been freed. -/
structure State where
  pc : Pc
  i : Nat
  leftBytes : Nat
  payloadBuf : Nat
  baddr : Nat
  totalReqCnt : Nat
  reqTot : Nat
  reqDone : Nat
  qpairInflight : Nat
  qpairCompletionCount : Nat
  outstanding : List (Option Nat)
  submitted : List Command
  tasks : Nat → Task
  freed : List Nat

/-- The thread goes on, a poll finds completions of these tasks in this order, or the queue pair takes or refuses a command. -/
inductive Act
  | advance
  | processCompletions (found : List (Option Nat))
  | submit (taken : Bool)
  deriving DecidableEq, Repr

/-- A buffer that has been read into is copied to its bio before it is freed. -/
def handleComplete (i : Nat) (s : State) : State :=
  let task := { s.tasks i with bioCmplCnt := (s.tasks i).bioCmplCnt + 1 }
  { s with
    tasks := Function.update s.tasks i task
    freed := if task.bioSubmitCnt = task.bioCmplCnt then s.freed ++ [i] else s.freed }

/-- A completion that nothing in flight accounts for is only warned about. -/
def countComplete (done : Option Nat) (s : State) : State :=
  { s with
    outstanding := s.outstanding.erase done
    qpairCompletionCount := s.qpairCompletionCount + 1
    qpairInflight := if s.qpairInflight = 0 then 0 else s.qpairInflight - 1 }

def ioCompleteCb (s : State) (done : Option Nat) : Option State :=
  if done ∈ s.outstanding then some
    (done.elim (countComplete done s) fun i => handleComplete i (countComplete done s)) else none

def processCompletions (found : List (Option Nat)) (s : State) : Option State := found.foldlM ioCompleteCb s

section

variable (c : Config) (r : Request)

def nextBio (b : Bio) (s : State) : State :=
  { s with
    pc := .filling
    leftBytes := bvLen b
    baddr := b.blkNo
    payloadBuf := if r.customBuf then s.payloadBuf else 0
    tasks := Function.update s.tasks s.i ⟨bioReqCnt c b,0⟩ }

def singleIoSize (s : State) : Nat := if c.maxIoSize < s.leftBytes then c.maxIoSize else s.leftBytes

def submitCmd (s : State) : State :=
  { s with
    pc := .filling
    submitted := s.submitted ++ [⟨s.i,s.payloadBuf,baddrToLba s.baddr,byteToLbaCnt (singleIoSize c s)⟩]
    outstanding := s.outstanding ++ [some s.i]
    payloadBuf := s.payloadBuf + singleIoSize c s
    leftBytes := s.leftBytes - singleIoSize c s
    baddr := s.baddr + singleIoSize c s / blockSize
    totalReqCnt := s.totalReqCnt + 1
    qpairInflight := s.qpairInflight + 1 }

def poll (s : State) : State :=
  { s with pc := if s.totalReqCnt = 0 then .pollingOnce else .polling, reqTot := s.totalReqCnt, reqDone := 0 }

def consumed (s : State) : Nat :=
  if s.reqTot - s.reqDone < s.qpairCompletionCount then s.reqTot - s.reqDone else s.qpairCompletionCount

def advance (s : State) : Option State :=
  match s.pc with
  | .bios =>
    match r.bl[s.i]? with
    | none => some (poll s)
    | some b => if r.customBuf ∧ s.i ≠ 0 then some { s with pc := .aborted } else some (nextBio c r b s)
  | .filling =>
    if 0 < s.leftBytes then some { s with pc := if c.inflightCap ≤ s.qpairInflight then .full else .retry }
    else some { s with pc := .bios, i := s.i + 1 }
  | .polling =>
    if s.reqDone < s.reqTot then
      if 0 < s.qpairCompletionCount then
        some { s with qpairCompletionCount := s.qpairCompletionCount - consumed s, reqDone := s.reqDone + consumed s }
      else none
    else some { s with pc := .returned }
  | _ => none

def polled (found : List (Option Nat)) (s : State) : Option Pc :=
  match s.pc with
  | .full => some (if found = [] then .full else .retry)
  | .refused => some .retry
  | .polling => if s.reqDone < s.reqTot ∧ s.qpairCompletionCount = 0 then some .polling else none
  | .pollingOnce => some .returned
  | _ => none

def step (s : State) : Act → Option State
  | .advance => advance c r s
  | .processCompletions found =>
    (polled found s).bind fun pc => (processCompletions found s).map fun t => { t with pc := pc }
  | .submit taken =>
    if s.pc = .retry then
      if r.isRead ∧ r.customBuf then some { s with pc := .aborted }
      else if taken then some (submitCmd c s)
      else some { s with pc := .refused }
    else none

end

def enter (inflight completionCount : Nat) : State :=
  { pc := .bios, i := 0, leftBytes := 0, payloadBuf := 0, baddr := 0, totalReqCnt := 0, reqTot := 0, reqDone := 0
    qpairInflight := inflight, qpairCompletionCount := completionCount, outstanding := replicate inflight none
    submitted := [], tasks := fun _ => ⟨0,0⟩, freed := [] }

section

variable (c : Config)

theorem Config.inflightCap_pos : 0 < c.inflightCap := by
  have requests := c.requests
  rw [Config.inflightCap]
  split_ifs <;> omega

def bioCommand (i : Nat) (b : Bio) (k : Nat) : Command :=
  ⟨i,k * c.maxIoSize,baddrToLba (b.blkNo + k * (c.maxIoSize / blockSize)),
    byteToLbaCnt (min c.maxIoSize (bvLen b - k * c.maxIoSize))⟩

def bioCommands (i : Nat) (b : Bio) : List Command := (List.range (bioReqCnt c b)).map (bioCommand c i b)

theorem Config.maxIoSize_eq : c.maxIoSize = c.maxIoSize / blockSize * blockSize := (Nat.div_mul_cancel c.whole).symm

theorem bioReqCnt_blks (b : Bio) : bioReqCnt c b = (b.nBlks + c.maxIoSize / blockSize - 1) / (c.maxIoSize / blockSize) := by
  have size := c.maxIoSize_eq
  have positive := c.positive
  rw [bioReqCnt,bvLen]
  generalize c.maxIoSize / blockSize = m at size ⊢
  rw [size] at positive ⊢
  rw [← Nat.add_mul,Nat.mul_comm m,← Nat.div_div_eq_div_mul]
  congr 1
  simp only [blockSize] at *
  omega

theorem bioCommand_tasks (i : Nat) (b : Bio) (k : Nat) :
    ((List.range k).map (bioCommand c i b)).map Command.task = replicate k i := by
  rw [map_map,show Command.task ∘ bioCommand c i b = fun _ => i from rfl,map_const',length_range]

end

theorem lt_bioReqCnt : k < bioReqCnt c b ↔ k * c.maxIoSize < bvLen b := by
  have positive := c.positive
  rw [bioReqCnt,Nat.lt_iff_add_one_le,Nat.le_div_iff_mul_le positive,Nat.succ_mul]
  omega

theorem bioCommand_transfers (onDevice : b.blkNo + b.nBlks ≤ maxDevBlks) (i : Nat) (below : k < bioReqCnt c b) :
    (bioCommand c i b k).transfers =
      (⟨k * (c.maxIoSize / blockSize),min (c.maxIoSize / blockSize) (b.nBlks - k * (c.maxIoSize / blockSize))⟩ :
        Extent).addresses.map
        fun j => ⟨i,j * blockSize,(b.blkNo + j) * sectorsPerBlock⟩ := by
  have size := c.maxIoSize_eq
  have sectors := c.sectors
  rw [lt_bioReqCnt] at below
  simp only [Command.transfers,bioCommand,Extent.addresses,map_map,Function.comp_def,bvLen] at *
  generalize c.maxIoSize / blockSize = m at size ⊢
  have offset : k * c.maxIoSize = k * m * blockSize := by rw [size,Nat.mul_assoc]
  rw [offset] at below ⊢
  have lba : baddrToLba (b.blkNo + k * m) = (b.blkNo + k * m) * sectorsPerBlock := by
    refine u32_of_lt ?_
    simp only [maxDevBlks,blockSize,sectorSize,sectorsPerBlock] at *
    omega
  have cnt : byteToLbaCnt (min c.maxIoSize (b.nBlks * blockSize - k * m * blockSize)) = min m
      (b.nBlks - k * m) * sectorsPerBlock := by
    rw [byteToLbaCnt,u32_of_lt] <;> simp only [maxDevBlks,blockSize,sectorSize,sectorsPerBlock] at * <;> omega
  rw [lba,cnt,Nat.mul_div_cancel _ (by decide)]
  refine map_congr_left ?_
  intro j _
  simp only [Nat.add_mul,Nat.add_assoc]

theorem bioCommands_transfers (onDevice : b.blkNo + b.nBlks ≤ maxDevBlks) (i : Nat) :
    (bioCommands c i b).flatMap Command.transfers = bioTransfers i b := by
  have cut := pieces_laid (c.maxIoSize / blockSize) b.nBlks (bioReqCnt c b) (Nat.le_of_eq (bioReqCnt_blks c b))
  have all : b.nBlks ≤ bioReqCnt c b * (c.maxIoSize / blockSize) := by
    by_contra short
    have more := (lt_bioReqCnt (c := c) (b := b) (k := bioReqCnt c b)).not.mp (Nat.lt_irrefl _)
    rw [c.maxIoSize_eq,bvLen,← Nat.mul_assoc] at more
    simp only [blockSize] at *
    omega
  rw [Nat.min_eq_right all] at cut
  have addresses := cut.addresses
  simp only [Nat.sub_zero,Nat.zero_add,map_id'] at addresses
  rw [bioTransfers,← addresses,map_flatMap,pieces,flatMap_map,bioCommands,flatMap_map]
  refine flatMap_congr ?_
  intro k below
  exact bioCommand_transfers onDevice i (mem_range.mp below)

def sentBios (c : Config) (bl : List Bio) (i : Nat) : List Command := ((bl.take i).mapIdx (bioCommands c)).flatten

theorem take_past {bl : List Bio} (past : bl[i]? = none) : bl.take (i + 1) = bl.take i := by
  have short := List.getElem?_eq_none_iff.mp past
  rw [take_of_length_le short,take_of_length_le (Nat.le_succ_of_le short)]

theorem take_succ_mapIdx {bl : List Bio} (here : bl[i]? = some b) (f : Nat → Bio → List α) :
    ((bl.take (i + 1)).mapIdx f).flatten = ((bl.take i).mapIdx f).flatten ++ f i b := by
  obtain ⟨below,-⟩ := List.getElem?_eq_some_iff.mp here
  have length : (bl.take i).length = i := length_take_of_le (Nat.le_of_lt below)
  rw [take_add_one,here,Option.toList_some,mapIdx_append,flatten_append,length]
  simp

theorem sentBios_succ (here : bl[i]? = some b) : sentBios c bl (i + 1) = sentBios c bl i ++ bioCommands c i b :=
  take_succ_mapIdx here (bioCommands c)

theorem sentBios_transfers (r : Request) (i : Nat) :
    (sentBios c r.bl i).flatMap Command.transfers = ((r.bl.take i).mapIdx bioTransfers).flatten := by
  induction i with
  | zero => simp [sentBios]
  | succ i ih =>
    cases here : r.bl[i]? with
    | none => rwa [sentBios,take_past here]
    | some b =>
      rw [sentBios_succ here,take_succ_mapIdx here,flatMap_append,ih,
        bioCommands_transfers (r.onDevice b (mem_of_getElem? here))]

theorem sentBios_all (r : Request) (past : r.bl[i]? = none) : (sentBios c r.bl i).flatMap Command.transfers = r.transfers := by
  rw [sentBios_transfers,take_of_length_le (List.getElem?_eq_none_iff.mp past),Request.transfers]

end Oxbow.DevFS.Dispatch
