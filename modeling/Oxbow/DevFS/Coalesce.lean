import Oxbow.DevFS.Bio
import Oxbow.Lib.LastWrite

/-! Passes 3, 4 and 5 of `do_checkpoint_coalesce`: the tag list built from the stage
transactions and the journal is cleared of overwritten blocks, merged, and turned into
reads from the logs and writes to the file-system area. -/
namespace Oxbow.DevFS

open Oxbow.Lib

/-- A tag of an on-disk descriptor: `cnt` blocks go to the file-system area at `start`. -/
structure ETag where
  start : Nat
  cnt : Nat
  positive : 0 < cnt
  fits : cnt < 2^32
  addressable : start + cnt ≤ invalid

structure TagListNode where
  start : Nat
  srcStartBaddr : Nat
  cnt : Nat
  stageTx : Bool
  deriving DecidableEq, Repr

/-- The two logs a checkpoint reads from: the entry's journal log and the stage log. -/
structure Logs where
  journal : LogRing
  stage : LogRing

def Logs.ring (logs : Logs) (stageTx : Bool) : LogRing := if stageTx then logs.stage else logs.journal

/-- The tags of one transaction. Their data blocks follow each other on the log from
`srcStartBaddr`, which may be written one past the end, and do not lap it. -/
structure TagGroup (logs : Logs) where
  srcStartBaddr : Nat
  stageTx : Bool
  tags : List ETag
  nonempty : tags ≠ []
  begins : (logs.ring stageTx).Position srcStartBaddr
  fits : (tags.map ETag.cnt).sum ≤ (logs.ring stageTx).size

def TagGroup.nodes (g : TagGroup logs) : List TagListNode :=
  g.tags.map fun t => ⟨t.start,g.srcStartBaddr,t.cnt,g.stageTx⟩

def tagList (groups : List (TagGroup logs)) : List TagListNode := groups.flatMap TagGroup.nodes

def newTag (r : TagListNode) (start cnt : Nat) : List TagListNode :=
  if 0 < cnt then [{ r with start := start, cnt := cnt }] else []

/-- One comparison of pass 3: what becomes of the older node `r` under a later tag
`[start, start+cnt)`. `none` is the branch that aborts. -/
def optimizeNode (start cnt : Nat) (r : TagListNode) : Option (List TagListNode) :=
  let after := newTag r (start + cnt) (r.start + r.cnt - (start + cnt))
  let kept := { r with start := if start - r.start = 0 then invalid else r.start, cnt := start - r.start }
  if r.start = invalid then some [r]
  else if r.start + r.cnt ≤ start ∨ start + cnt ≤ r.start then some [r]
  else if start = r.start ∧ cnt = r.cnt then some [{ r with start := invalid }]
  else if r.start ≤ start ∧ start + cnt ≤ r.start + r.cnt then
    some (kept :: newTag r invalid cnt ++ after)
  else if start ≤ r.start ∧ r.start + r.cnt ≤ start + cnt then some [{ r with start := invalid }]
  else if start < r.start ∧ start + cnt < r.start + r.cnt then
    some ({ r with start := invalid, cnt := start + cnt - r.start } :: after)
  else if r.start < start ∧ r.start + r.cnt < start + cnt then
    some (kept :: newTag r invalid (r.start + r.cnt - start))
  else none

/-- The inner loop: the nodes before the current one are visited backwards, and the
pieces of each are put behind it, where this walk does not come again. -/
def optimizeBack (start cnt : Nat) : List TagListNode → List TagListNode → Option (List TagListNode)
  | [], after => some after
  | r :: before, after =>
    (optimizeNode start cnt r).bind fun pieces => optimizeBack start cnt before (pieces ++ after)

/-- The outer loop, over the nodes of the two scans; pieces always land before the
current node. -/
def optimize : List TagListNode → List TagListNode → Option (List TagListNode)
  | done, [] => some done
  | done, n :: todo => (optimizeBack n.start n.cnt done.reverse [n]).bind (optimize · todo)

def mergeable (prev node : TagListNode) : Bool :=
  (node.start = invalid ∧ prev.start = invalid) ∨
  ((node.start ≠ invalid ∧ prev.start ≠ invalid) ∧ node.start = prev.start + prev.cnt)

/-- One node of pass 4; the nodes already passed stand in reverse, so its list
predecessor is the head. -/
def coalesceNode (group : Nat) (passed : List TagListNode) (n : TagListNode) : List TagListNode :=
  if group ≠ n.srcStartBaddr then n :: passed
  else match passed with
    | [] => [n]
    | p :: ps => if mergeable p n then { p with cnt := u32 (p.cnt + n.cnt) } :: ps else n :: p :: ps

def coalesce : Nat → List TagListNode → List TagListNode → List TagListNode
  | _, passed, [] => passed.reverse
  | group, passed, n :: todo => coalesce n.srcStartBaddr (coalesceNode group passed n) todo

structure Issue where
  nBlks : Nat
  reads : List Bio
  writes : List Bio
  deriving DecidableEq, Repr

def issueOf (src : Nat) (n : TagListNode) : List Issue :=
  if n.start = invalid then []
  else [⟨n.cnt,addBioToBl 0 src n.cnt,addBioToBl 0 n.start n.cnt⟩]

/-- Pass 5. `group` and `current` are the source of the group and the log address its
next block has; a node that runs past the end of its log is cut there, and the second
part is put behind it. -/
def issueLoop (logs : Logs) : Nat → Nat → Nat → List TagListNode → List Issue
  | 0, _, _, _ => []
  | _, _, _, [] => []
  | fuel + 1, group, current, n :: todo =>
    if n.cnt = 0 then issueLoop logs fuel group current todo
    else
      let current := if group ≠ n.srcStartBaddr then n.srcStartBaddr else current
      let ring := logs.ring n.stageTx
      if checkWrapAround current n.cnt ring.last then
        let cnt := blksToEnd current ring.last
        if 0 < sub32 n.cnt cnt then
          let second := { n with
            start := if n.start = invalid then invalid else n.start + cnt
            cnt := sub32 n.cnt cnt }
          let first := { n with start := if cnt = 0 then invalid else n.start, cnt := cnt }
          issueOf current first ++ issueLoop logs fuel n.srcStartBaddr ring.first (second :: todo)
        else issueOf current { n with cnt := cnt } ++ issueLoop logs fuel n.srcStartBaddr ring.first todo
      else issueOf current n ++ issueLoop logs fuel n.srcStartBaddr (current + n.cnt) todo

/-- The reads and writes are dispatched whenever their buffers reach the limit, and
once more at the end. -/
def batches (maxBufSize : Nat) : Nat → List Issue → List Issue → List (List Issue)
  | _, pending, [] => if pending.isEmpty then [] else [pending]
  | size, pending, i :: is =>
    let size := u64 (size + i.nBlks * blockSize)
    if maxBufSize ≤ size then (pending ++ [i]) :: batches maxBufSize 0 [] is
    else batches maxBufSize size (pending ++ [i]) is

/-- A node is cut at most once, so twice the length of the list bounds pass 5. -/
def doCheckpointCoalesce (logs : Logs) (maxBufSize : Nat) (tags : List TagListNode) :
    Option (List (List Issue)) :=
  (optimize [] tags).map fun optimized =>
    let coalesced := coalesce invalid [] optimized
    batches maxBufSize 0 [] (issueLoop logs (2 * coalesced.length) invalid 0 coalesced)

/-- The block copies of an issue: a write takes the block that was read into its
buffer block. -/
def Issue.copies (i : Issue) : List (Nat × Nat) :=
  (blBlocks i.writes).filterMap fun w =>
    ((blBlocks i.reads).find? fun r => r.2 = w.2).map fun r => (r.1,w.1)

def issuedCopies (dispatched : List (List Issue)) : List (Nat × Nat) :=
  dispatched.flatten.flatMap Issue.copies

def ETag.dests (t : ETag) : List Nat := (List.range t.cnt).map (t.start + ·)

section

variable (groups : List (TagGroup logs))

/-- The meaning of the tags: block `k` of a group is at the `k`-th address of its log
from the group's source, and the tags of the group name the destinations in order. -/
def tagWrites : List (Nat × Nat) :=
  groups.flatMap fun g =>
    (g.tags.flatMap ETag.dests).mapIdx fun k d => ((logs.ring g.stageTx).block g.srcStartBaddr k,d)

/-- Some tag names the block. -/
def Named (d : Nat) : Prop :=
  ∃ g ∈ groups, ∃ t ∈ g.tags, t.start ≤ d ∧ d < t.start + t.cnt

/-- The scans put tags of one source into one group. -/
def Grouped : Prop :=
  groups.IsChain fun g h => g.srcStartBaddr ≠ h.srcStartBaddr

end

end Oxbow.DevFS
