import Oxbow.DevFS.MetaScan

/-! The metadata buffer of a journal transaction. The descriptor takes the first tags; when
it is full they go to extent tag blocks, and each traced stage list takes stage trace blocks
of its own. All of them are reserved one by one behind the descriptor. -/
namespace Oxbow.Daemon.JournalMeta

open Oxbow.Lib Oxbow.Sjd Oxbow.DevFS List Option

/-- `BG_JOURNAL_COMMIT_SIZE / OXBOW_BLOCK_SIZE`: 32 MB of 4 KB blocks. -/
def bufBlocks : Nat := 8192

structure MdBuf where
  memory : Nat → Page
  descBlk : Page
  blks : List Page
  mdNrBlocks : Nat
  extBlk : Option Nat

/-- `reserve_mdblk` for one block: its place and its old contents. It stops at a full buffer
and has no answer when it takes the last block. -/
def reserveMdblk (s : MdBuf) : Option (Nat × Page × Nat) :=
  if s.mdNrBlocks < 1 then none
  else if s.mdNrBlocks - 1 = 0 then none
  else some (s.blks.length,s.memory (s.blks.length + 1),s.mdNrBlocks - 1)

def initDescBlk (p : Page) : Page :=
  setWord (setWord (journalDescBlk.clear p) journalNrEtagBlksAt 0) journalNrStageTraceBlksAt 0

def init (memory : Nat → Page) : MdBuf := ⟨memory,initDescBlk (memory 0),[],bufBlocks - 1,none⟩

def openEtagBlk (s : MdBuf) (nrEtagBlks : Nat) : Option MdBuf :=
  (reserveMdblk s).map fun blk =>
    { s with
      descBlk := setWord s.descBlk journalNrEtagBlksAt nrEtagBlks
      blks := s.blks ++ [setWord (etagBlk.clear blk.2.1) blocktypeAt etagBlkType]
      mdNrBlocks := blk.2.2
      extBlk := some blk.1 }

def fillTagblk (s : MdBuf) (tag : Extent) : Option MdBuf :=
  match s.extBlk with
  | some k =>
    let page := etagBlk.push (s.blks.getD k (s.memory (k + 1))) tag
    let s := { s with blks := s.blks.set k page }
    if etagBlk.nr page = journalEtagMax then openEtagBlk s (journalNrEtagBlks s.descBlk + 1) else some s
  | none =>
    if journalDescTagMax ≤ journalDescBlk.nr s.descBlk then none
    else
      let s := { s with descBlk := journalDescBlk.push s.descBlk tag }
      if journalDescBlk.nr s.descBlk = journalDescTagMax then openEtagBlk s 1 else some s

def openTraceBlk (s : MdBuf) : Option MdBuf :=
  (reserveMdblk s).map fun blk =>
    { s with
      descBlk := setWord s.descBlk journalNrStageTraceBlksAt (journalNrStageTraceBlks s.descBlk + 1)
      blks := s.blks ++ [setWord (stageTraceBlk.clear blk.2.1) blocktypeAt stageTraceBlkType]
      mdNrBlocks := blk.2.2 }

def traceBlk (s : MdBuf) : Page := s.blks.getD (s.blks.length - 1) (s.memory s.blks.length)

def pushTrace (s : MdBuf) (start : Nat) : MdBuf :=
  { s with blks := s.blks.set (s.blks.length - 1) (stageTraceBlk.push (traceBlk s) start) }

def traceLoop (s : MdBuf) : List Nat → Option MdBuf
  | [] => some s
  | [start] => some (pushTrace s start)
  | start :: next :: rest =>
    let s := pushTrace s start
    if stageTraceBlk.nr (traceBlk s) = journalTraceMax then
      (openTraceBlk s).bind fun s => traceLoop s (next :: rest)
    else traceLoop s (next :: rest)

def journalStageTrace (s : MdBuf) (starts : List Nat) : Option MdBuf :=
  (openTraceBlk s).bind fun s => traceLoop s starts

inductive Op
  | tag (tag : Extent)
  | trace (starts : List Nat)

/-- What the calls can be asked to store: tags of 64-bit starts and 32-bit counts, and
stage lists that are not empty. -/
def Op.Valid : Op → Prop
  | .tag e => extent96.Storable e
  | .trace starts => starts ≠ [] ∧ ∀ start ∈ starts, number64.Storable start

def apply (s : MdBuf) : Op → Option MdBuf
  | .tag tag => fillTagblk s tag
  | .trace starts => journalStageTrace s starts

def build (s : MdBuf) : List Op → Option MdBuf
  | [] => some s
  | op :: ops => (apply s op).bind fun s => build s ops

def Op.tags : Op → List Extent
  | .tag e => [e]
  | .trace _ => []

def Op.starts : Op → List Nat
  | .tag _ => []
  | .trace starts => starts

def mdSize (s : MdBuf) : Nat := bufBlocks * 4096 - s.mdNrBlocks * 4096

def txMeta (s : MdBuf) : TxMeta := copyDescAndMetaToTxMeta s.descBlk s.blks

inductive Next (s : MdBuf) : Prop
  | desc (closed : s.extBlk = none) (room : journalDescBlk.nr s.descBlk < journalDescTagMax)
      (none : s.blks.filter isEtagBlk = [])
  | ext (before after : List Page) (page : Page) (here : s.extBlk = some before.length)
      (blks : s.blks = before ++ page :: after) (etag : isEtagBlk page) (room : etagBlk.nr page < journalEtagMax)
      (last : after.filter isEtagBlk = []) (full : journalDescBlk.nr s.descBlk = journalDescTagMax)

structure Held (s : MdBuf) (tags : List Extent) (starts : List Nat) : Prop where
  size : s.blks.length + 1 + s.mdNrBlocks = bufBlocks
  typed : ∀ p ∈ s.blks, isEtagBlk p ∨ isStageTraceBlk p
  nrEtag : journalNrEtagBlks s.descBlk = (s.blks.filter isEtagBlk).length
  nrTrace : journalNrStageTraceBlks s.descBlk = (s.blks.filter isStageTraceBlk).length
  tags : journalDescBlk.entries s.descBlk ++ etagsOf s.blks = tags
  starts : tracesOf s.blks = starts

section Pages

variable (p : Page)

@[simp] theorem blocktype_push_etag (tag : Extent) : blocktype (etagBlk.push p tag) = blocktype p :=
  etagBlk.word_push_header p (by decide) (by decide)

@[simp] theorem blocktype_push_trace (start : Nat) : blocktype (stageTraceBlk.push p start) = blocktype p :=
  stageTraceBlk.word_push_header p (by decide) (by decide)

theorem opened_etag : isEtagBlk (setWord (etagBlk.clear p) blocktypeAt etagBlkType) = true ∧
    isStageTraceBlk (setWord (etagBlk.clear p) blocktypeAt etagBlkType) = false ∧
    etagBlk.nr (setWord (etagBlk.clear p) blocktypeAt etagBlkType) = 0 := by
  refine ⟨?_,?_,?_⟩
  · simp [isEtagBlk,blocktype,word_setWord _ (show blocktypeAt < 1024 by decide),etagBlkType]
  · simp [isStageTraceBlk,blocktype,word_setWord _ (show blocktypeAt < 1024 by decide),etagBlkType,stageTraceBlkType]
  · exact (word_setWord_ne _ (by decide)).trans (etagBlk.nr_clear p)

theorem opened_trace : isEtagBlk (setWord (stageTraceBlk.clear p) blocktypeAt stageTraceBlkType) = false ∧
    isStageTraceBlk (setWord (stageTraceBlk.clear p) blocktypeAt stageTraceBlkType) = true ∧
    stageTraceBlk.nr (setWord (stageTraceBlk.clear p) blocktypeAt stageTraceBlkType) = 0 := by
  refine ⟨?_,?_,?_⟩
  · simp [isEtagBlk,blocktype,word_setWord _ (show blocktypeAt < 1024 by decide),etagBlkType,stageTraceBlkType]
  · simp [isStageTraceBlk,blocktype,word_setWord _ (show blocktypeAt < 1024 by decide),stageTraceBlkType]
  · exact (word_setWord_ne _ (by decide)).trans (stageTraceBlk.nr_clear p)

theorem desc_push (tag : Extent) : journalNrEtagBlks (journalDescBlk.push p tag) = journalNrEtagBlks p ∧
    journalNrStageTraceBlks (journalDescBlk.push p tag) = journalNrStageTraceBlks p :=
  ⟨journalDescBlk.word_push_header p (by decide) (by decide),journalDescBlk.word_push_header p (by decide) (by decide)⟩

theorem desc_nrEtag (n : Nat) (small : n < 2^32) : journalNrEtagBlks (setWord p journalNrEtagBlksAt n) = n ∧
    journalNrStageTraceBlks (setWord p journalNrEtagBlksAt n) = journalNrStageTraceBlks p ∧
    journalDescBlk.nr (setWord p journalNrEtagBlksAt n) = journalDescBlk.nr p ∧
    journalDescBlk.entries (setWord p journalNrEtagBlksAt n) = journalDescBlk.entries p :=
  ⟨(word_setWord p (by decide)).trans (Nat.mod_eq_of_lt small),word_setWord_ne p (by decide),
    word_setWord_ne p (by decide),journalDescBlk.entries_setWord p (by decide) (by decide)⟩

theorem desc_nrTrace (n : Nat) (small : n < 2^32) :
    journalNrEtagBlks (setWord p journalNrStageTraceBlksAt n) = journalNrEtagBlks p ∧
    journalNrStageTraceBlks (setWord p journalNrStageTraceBlksAt n) = n ∧
    journalDescBlk.nr (setWord p journalNrStageTraceBlksAt n) = journalDescBlk.nr p ∧
    journalDescBlk.entries (setWord p journalNrStageTraceBlksAt n) = journalDescBlk.entries p :=
  ⟨word_setWord_ne p (by decide),(word_setWord p (by decide)).trans (Nat.mod_eq_of_lt small),
    word_setWord_ne p (by decide),journalDescBlk.entries_setWord p (by decide) (by decide)⟩

end Pages

variable {tags : List Extent} {starts : List Nat}

theorem reserveMdblk_eq (reserved : reserveMdblk s = some blk) :
    blk = (s.blks.length,s.memory (s.blks.length + 1),s.mdNrBlocks - 1) ∧ 1 < s.mdNrBlocks := by
  simp only [reserveMdblk] at reserved
  split at reserved
  · cases reserved
  · split at reserved
    · cases reserved
    · exact ⟨(some.inj reserved).symm,by omega⟩

theorem Held.openEtag (held : Held s tags starts) (full : journalDescBlk.nr s.descBlk = journalDescTagMax)
    (count : n = (s.blks.filter isEtagBlk).length + 1) (opened : openEtagBlk s n = some t) :
    Held t tags starts ∧ Next t := by
  obtain ⟨blk,reserved,rfl⟩ := map_eq_some_iff.mp opened
  obtain ⟨rfl,room⟩ := reserveMdblk_eq reserved
  obtain ⟨etag,notTrace,empty⟩ := opened_etag (s.memory (s.blks.length + 1))
  have size := held.size
  have bounded := length_filter_le isEtagBlk s.blks
  obtain ⟨nrEtag,nrTrace,nr,entries⟩ := desc_nrEtag s.descBlk n (by simp only [bufBlocks] at size; omega)
  have none := etagBlk.entries_of_nr _ empty
  refine ⟨⟨?_,?_,?_,?_,?_,?_⟩,?_⟩
  · simp only [length_append,length_singleton]
    omega
  · intro p member
    rcases mem_append.mp member with old | new
    · exact held.typed p old
    · obtain rfl := mem_singleton.mp new
      exact .inl etag
  · simp only [nrEtag]
    simp [count,etag]
  · simp [nrTrace,held.nrTrace,notTrace]
  · simp [entries,etagsOf,etag,none,← held.tags]
  · simp [tracesOf,notTrace,← held.starts]
  · exact .ext s.blks [] _ rfl rfl etag (by rw [empty]; decide) rfl (by simp only [nr]; exact full)

theorem Next.append (next : Next s) (notEtag : isEtagBlk page = false) (blks : t.blks = s.blks ++ [page])
    (ext : t.extBlk = s.extBlk) (nr : journalDescBlk.nr t.descBlk = journalDescBlk.nr s.descBlk) : Next t := by
  cases next with
  | desc closed room none => exact .desc (ext.trans closed) (nr ▸ room) (by simp [blks,none,notEtag])
  | ext before after other here old etag room last full =>
    exact .ext before (after ++ [page]) other (ext.trans here) (by simp [blks,old]) etag room (by simp [last,notEtag])
      (nr.trans full)

theorem Held.openTrace (held : Held s tags starts) (next : Next s) (opened : openTraceBlk s = some t) :
    Held t tags starts ∧ Next t ∧ ∃ before page, t.blks = before ++ [page] ∧ isStageTraceBlk page ∧
      stageTraceBlk.nr page = 0 := by
  obtain ⟨blk,reserved,rfl⟩ := map_eq_some_iff.mp opened
  obtain ⟨rfl,room⟩ := reserveMdblk_eq reserved
  obtain ⟨notEtag,trace,empty⟩ := opened_trace (s.memory (s.blks.length + 1))
  have size := held.size
  have bounded := length_filter_le isStageTraceBlk s.blks
  have old := held.nrTrace
  obtain ⟨nrEtag,nrTrace,nr,entries⟩ := desc_nrTrace s.descBlk (journalNrStageTraceBlks s.descBlk + 1)
    (by simp only [bufBlocks] at size; omega)
  have none := stageTraceBlk.entries_of_nr _ empty
  refine ⟨⟨?_,?_,?_,?_,?_,?_⟩,next.append notEtag rfl rfl nr,s.blks,_,rfl,trace,empty⟩
  · simp only [length_append,length_singleton]
    omega
  · intro p member
    rcases mem_append.mp member with old | new
    · exact held.typed p old
    · obtain rfl := mem_singleton.mp new
      exact .inr trace
  · simp [nrEtag,held.nrEtag,notEtag]
  · rw [nrTrace,old]
    simp [trace]
  · simp [entries,etagsOf,notEtag,← held.tags]
  · simp [tracesOf,trace,none,← held.starts]

theorem filter_replace (f : Page → Bool) (before after : List Page) (old new : Page) (same : f new = f old) :
    ((before ++ new :: after).filter f).length = ((before ++ old :: after).filter f).length := by
  simp only [filter_append,filter_cons,same]
  split <;> simp

theorem isEtagBlk_push (p : Page) (tag : Extent) : isEtagBlk (etagBlk.push p tag) = isEtagBlk p := by
  simp [isEtagBlk]

theorem isStageTraceBlk_push (p : Page) (start : Nat) : isStageTraceBlk (stageTraceBlk.push p start) = isStageTraceBlk p := by
  simp [isStageTraceBlk]

theorem Held.push_etag {before after : List Page} (held : Held s tags starts)
    (blks : s.blks = before ++ page :: after) (etag : isEtagBlk page = true) (room : etagBlk.nr page < journalEtagMax)
    (last : after.filter isEtagBlk = []) (storable : extent96.Storable tag) :
    Held { s with blks := before ++ etagBlk.push page tag :: after } (tags ++ [tag]) starts := by
  have entries := etagBlk.entries_push page room storable
  have same := (isEtagBlk_push page tag).trans etag
  have notTrace := etag_not_trace etag
  have notTrace' := etag_not_trace same
  obtain ⟨size,typed,nrEtag,nrTrace,tagsEq,startsEq⟩ := held
  rw [blks] at size typed nrEtag nrTrace tagsEq startsEq
  refine ⟨?_,?_,?_,?_,?_,?_⟩
  · simpa using size
  · intro p member
    simp only [mem_append,mem_cons] at member typed
    rcases member with earlier | rfl | later
    · exact typed p (.inl earlier)
    · exact .inl same
    · exact typed p (.inr (.inr later))
  · rw [nrEtag,filter_replace isEtagBlk before after page _ (isEtagBlk_push page tag)]
  · rw [nrTrace,filter_replace isStageTraceBlk before after page _ (notTrace'.trans notTrace.symm)]
  · simp [etagsOf,same,entries,last,etag,← tagsEq]
  · simpa [tracesOf,notTrace,notTrace'] using startsEq

/-- A tag stored in the descriptor or in the extent tag block that takes the next one. -/
theorem fillTagblk_held (held : Held s tags starts) (next : Next s) (storable : extent96.Storable tag)
    (filled : fillTagblk s tag = some t) : Held t (tags ++ [tag]) starts ∧ Next t := by
  cases next with
  | desc closed room none =>
    obtain ⟨sameEtag,sameTrace⟩ := desc_push s.descBlk tag
    have entries := journalDescBlk.entries_push s.descBlk room storable
    have count := journalDescBlk.nr_push (a := tag) s.descBlk room
    have pushed : Held { s with descBlk := journalDescBlk.push s.descBlk tag } (tags ++ [tag]) starts := by
      refine ⟨held.size,held.typed,sameEtag.trans held.nrEtag,sameTrace.trans held.nrTrace,?_,held.starts⟩
      simp [entries,etagsOf,none,← held.tags]
    simp only [fillTagblk,closed] at filled
    rw [if_neg (Nat.not_le.mpr room)] at filled
    split at filled
    next full => exact pushed.openEtag full (by simp [none]) filled
    next more =>
      obtain rfl := some.inj filled
      rw [closed] at pushed
      exact ⟨pushed,.desc rfl (by simp only [count] at more ⊢; omega) none⟩
  | ext before after page here blks etag room last full =>
    have count := etagBlk.nr_push (a := tag) page room
    have pushed := held.push_etag blks etag room last storable
    have current : s.blks.getD before.length (s.memory (before.length + 1)) = page := by simp [blks]
    have set : s.blks.set before.length (etagBlk.push page tag) = before ++ etagBlk.push page tag :: after := by
      simp [blks]
    simp only [fillTagblk,here,current,set] at filled
    split at filled
    next new => exact pushed.openEtag full (by rw [← pushed.nrEtag]) filled
    next more =>
      obtain rfl := some.inj filled
      rw [here] at pushed
      refine ⟨pushed,.ext before after _ rfl rfl ((isEtagBlk_push page tag).trans etag) ?_ last full⟩
      simp only [count] at more ⊢
      omega

theorem pushTrace_held (held : Held s tags starts) (next : Next s)
    (blks : s.blks = before ++ [page]) (trace : isStageTraceBlk page = true)
    (room : stageTraceBlk.nr page < journalTraceMax) (storable : number64.Storable start) :
    Held (pushTrace s start) tags (starts ++ [start]) ∧ Next (pushTrace s start) ∧
      (pushTrace s start).blks = before ++ [stageTraceBlk.push page start] := by
  have entries := stageTraceBlk.entries_push page room storable
  have same := (isStageTraceBlk_push page start).trans trace
  have notEtag := trace_not_etag trace
  have notEtag' := trace_not_etag same
  have pushed : pushTrace s start = { s with blks := before ++ [stageTraceBlk.push page start] } := by
    simp [pushTrace,traceBlk,blks]
  rw [pushed]
  obtain ⟨size,typed,nrEtag,nrTrace,tagsEq,startsEq⟩ := held
  rw [blks] at size typed nrEtag nrTrace tagsEq startsEq
  refine ⟨⟨?_,?_,?_,?_,?_,?_⟩,?_,rfl⟩
  · simpa using size
  · intro p member
    simp only [mem_append,mem_singleton] at member typed
    rcases member with earlier | rfl
    · exact typed p (.inl earlier)
    · exact .inr same
  · rw [nrEtag,filter_replace isEtagBlk before [] page _ (notEtag'.trans notEtag.symm)]
  · rw [nrTrace,filter_replace isStageTraceBlk before [] page _ (isStageTraceBlk_push page start)]
  · simpa [etagsOf,notEtag,notEtag'] using tagsEq
  · simp [tracesOf,same,entries,trace,← startsEq]
  · cases next with
    | desc closed room none =>
      rw [blks] at none
      exact .desc closed room (by simpa [notEtag,notEtag'] using none)
    | ext first after other here old etag room last full =>
      -- the extent tag block in use is not the trace block behind it
      rcases after.eq_nil_or_concat with rfl | ⟨between,final,rfl⟩
      · have clash := (append_inj' (blks.symm.trans old) rfl).2
        simp only [cons.injEq,and_true] at clash
        simp [clash,etag] at notEtag
      · have split : before ++ [page] = (first ++ other :: between) ++ [final] := by simpa [blks] using old
        obtain ⟨rfl,_⟩ := append_inj' split rfl
        refine .ext first (between ++ [stageTraceBlk.push page start]) other here (by simp) etag room ?_ full
        rw [concat_eq_append,filter_append,append_eq_nil_iff] at last
        simp [last.1,notEtag']

theorem traceLoop_held (list : List Nat) (storable : ∀ start ∈ list, number64.Storable start) (s : MdBuf)
    (starts : List Nat) (before : List Page) (page : Page) (held : Held s tags starts) (next : Next s)
    (blks : s.blks = before ++ [page]) (trace : isStageTraceBlk page = true)
    (room : stageTraceBlk.nr page < journalTraceMax) (traced : traceLoop s list = some t) :
    Held t tags (starts ++ list) ∧ Next t := by
  induction list generalizing s starts before page with
  | nil =>
    obtain rfl := some.inj traced
    exact ⟨by simpa using held,next⟩
  | cons start rest ih =>
    obtain ⟨held',next',blks'⟩ := pushTrace_held held next blks trace room (storable start mem_cons_self)
    have later := ih fun start member => storable start (mem_cons_of_mem _ member)
    cases rest with
    | nil =>
      obtain rfl := some.inj traced
      exact ⟨held',next'⟩
    | cons other rest =>
      have current : traceBlk (pushTrace s start) = stageTraceBlk.push page start := by simp [traceBlk,blks']
      have count := stageTraceBlk.nr_push (a := start) page room
      rw [show starts ++ start :: other :: rest = (starts ++ [start]) ++ other :: rest by simp]
      simp only [traceLoop,current] at traced
      split at traced
      next full =>
        obtain ⟨r,opened,traced⟩ := bind_eq_some_iff.mp traced
        obtain ⟨held,next,before,page,blks,trace,empty⟩ := held'.openTrace next' opened
        exact later r _ before page held next blks trace (by rw [empty]; decide) traced
      next more =>
        refine later _ _ before _ held' next' blks' ((isStageTraceBlk_push page start).trans trace) ?_ traced
        rw [count] at more ⊢
        omega

theorem apply_held (valid : op.Valid) (held : Held s tags starts) (next : Next s)
    (applied : apply s op = some t) : Held t (tags ++ op.tags) (starts ++ op.starts) ∧ Next t := by
  cases op with
  | tag tag => simpa [Op.tags,Op.starts] using fillTagblk_held held next valid applied
  | trace list =>
    obtain ⟨r,opened,traced⟩ := bind_eq_some_iff.mp applied
    obtain ⟨held,next,before,page,blks,trace,empty⟩ := held.openTrace next opened
    have room : stageTraceBlk.nr page < journalTraceMax := by rw [empty]; decide
    simpa [Op.tags,Op.starts] using traceLoop_held list valid.2 r starts before page held next blks trace room traced

theorem build_held (ops : List Op) (valid : ∀ op ∈ ops, op.Valid) (held : Held s tags starts) (next : Next s)
    (built : build s ops = some t) :
    Held t (tags ++ ops.flatMap Op.tags) (starts ++ ops.flatMap Op.starts) ∧ Next t := by
  induction ops generalizing s tags starts with
  | nil =>
    obtain rfl := some.inj built
    exact ⟨by simpa using held,next⟩
  | cons op ops ih =>
    obtain ⟨r,applied,built⟩ := bind_eq_some_iff.mp built
    obtain ⟨held,next⟩ := apply_held (valid op mem_cons_self) held next applied
    simpa using ih (fun op member => valid op (mem_cons_of_mem _ member)) held next built

theorem init_held (memory : Nat → Page) : Held (init memory) [] [] ∧ Next (init memory) := by
  obtain ⟨etag,_,nr,entries⟩ := desc_nrEtag (journalDescBlk.clear (memory 0)) 0 (by decide)
  obtain ⟨etag',trace',nr',entries'⟩ :=
    desc_nrTrace (setWord (journalDescBlk.clear (memory 0)) journalNrEtagBlksAt 0) 0 (by decide)
  have empty := journalDescBlk.nr_clear (memory 0)
  have none := journalDescBlk.entries_of_nr _ empty
  refine ⟨⟨by simp [init,bufBlocks],by simp [init],etag'.trans etag,trace',?_,rfl⟩,.desc rfl ?_ rfl⟩
  · simp [init,initDescBlk,entries',entries,none,etagsOf]
  · simp only [init,initDescBlk,nr',nr,empty]
    decide

/-- Whatever fits into the buffer is what the two scans find, in the order it was stored. -/
theorem build_roundTrip (memory : Nat → Page) (ops : List Op) (valid : ∀ op ∈ ops, op.Valid) (s : MdBuf)
    (built : build (init memory) ops = some s) :
    scanStageTrace (txMeta s) = ops.flatMap Op.starts ∧ scanJournal (txMeta s) = some (ops.flatMap Op.tags) ∧
      mdSize s / 4096 = 1 + journalNrEtagBlks s.descBlk + journalNrStageTraceBlks s.descBlk := by
  obtain ⟨held,next⟩ := init_held memory
  obtain ⟨held,next⟩ := build_held ops valid held next built
  simp only [nil_append] at held
  have all := length_typed s.blks held.typed
  have announced : journalNrEtagBlks s.descBlk + journalNrStageTraceBlks s.descBlk = s.blks.length := by
    rw [held.nrEtag,held.nrTrace,all]
  have copied : txMeta s = ⟨s.descBlk,s.blks⟩ := by
    simp [txMeta,copyDescAndMetaToTxMeta,announced]
  have size := held.size
  rw [copied,scanStageTrace_eq]
  refine ⟨held.starts,?_,?_⟩
  · have tags := held.tags
    simp only [scanJournal]
    split
    next empty =>
      cases next with
      | desc closed room none =>
        have nothing := journalDescBlk.entries_of_nr s.descBlk empty
        simp only [nothing,etagsOf,none] at tags
        simp [held.nrEtag,none,← tags]
      | ext _ _ _ _ _ _ _ _ full => exact absurd (full.symm.trans empty) (by decide)
    next => simp [scanMetaBlks_eq s.blks held.typed,tags]
  · rw [mdSize,← Nat.sub_mul,Nat.mul_div_cancel _ (by decide)]
    omega

/-- A stage list is traced between the tag that fills the descriptor and the next one. -/
theorem build_roundTrip_spilled :
    ∃ s, build (init fun _ _ => 0) (replicate 339 (.tag ⟨7,2⟩) ++ [.trace [40,50],.tag ⟨9,1⟩]) = some s ∧
      scanStageTrace (txMeta s) = [40,50] ∧ scanJournal (txMeta s) = some (replicate 339 ⟨7,2⟩ ++ [⟨9,1⟩]) := by
  have fits : (build (init fun _ _ => 0) (replicate 339 (.tag ⟨7,2⟩) ++ [.trace [40,50],.tag ⟨9,1⟩])).isSome := by
    decide +kernel
  obtain ⟨s,built⟩ := isSome_iff_exists.mp fits
  have valid : ∀ op ∈ replicate 339 (Op.tag ⟨7,2⟩) ++ [.trace [40,50],.tag ⟨9,1⟩], op.Valid := by
    intro op member
    simp only [mem_append,mem_replicate,mem_cons,not_mem_nil,or_false] at member
    rcases member with ⟨_,rfl⟩ | rfl | rfl <;> simp [Op.Valid,extent96,number64]
  obtain ⟨traced,tagged,_⟩ := build_roundTrip _ _ valid s built
  exact ⟨s,built,traced.trans (by decide +kernel),tagged.trans (by decide +kernel)⟩

end Oxbow.Daemon.JournalMeta
