import Oxbow.DevFS.CheckpointTx

/-! What each checkpoint leaves on the disk, in terms of the disk it begins with. The logs are only read, so every copy takes its
block as it was at first: the plain checkpoint applies one stage transaction after the other and then the journal tags, the
coalescing one all the inodes and then the last write to every block. -/
namespace Oxbow.DevFS.Ckpt

open Oxbow.Lib List

section

variable (ring : LogRing) (src off : Nat)

def onLog (ds : List Nat) : List (Nat × Nat) :=
  ds.mapIdx fun i d => (ring.block src (off + i),d)

theorem onLog_append (ds es : List Nat) :
    onLog ring src off (ds ++ es) = onLog ring src off ds ++ onLog ring src (off + ds.length) es := by
  rw [onLog,mapIdx_append,onLog,onLog]
  simp only [Nat.add_assoc,Nat.add_comm ds.length]

theorem onLog_dests (ds : List Nat) : (onLog ring src off ds).map Prod.snd = ds := by
  apply ext_getElem (by simp [onLog])
  simp [onLog]

end

theorem onLog_holds (position : ring.Position src)
    (within : off + ds.length ≤ ring.size) : ∀ w ∈ onLog ring src off ds, ring.Holds w.1 := by
  intro w member
  obtain ⟨i,below,rfl⟩ := mem_mapIdx.mp member
  exact ring.block_holds position (by omega)

theorem straight_onLog (here : At logs ⟨src,stageTx,off⟩ current) (dst : Nat)
    (room : current + n ≤ (logs.ring stageTx).last + 1) (within : off + n ≤ (logs.ring stageTx).size) :
    Issue.copies (io current dst n) = onLog (logs.ring stageTx) src off ((List.range n).map (dst + ·)) := by
  rw [io,io_copies,onLog,mapIdx_range]
  apply map_congr_left
  intro i member
  have below := mem_range.mp member
  have same := here.next i (by simp only; omega)
  rw [Ring.block_before_end _ (by simp only; omega)] at same
  exact congrArg (·,dst + i) same

theorem tagIssues_onLog (here : At logs ⟨src,stageTx,off⟩ current) (t : ETag)
    (within : off + t.cnt ≤ (logs.ring stageTx).size) :
    (tagIssues (logs.ring stageTx) current t).1.flatMap Issue.copies = onLog (logs.ring stageTx) src off t.dests ∧
      At logs ⟨src,stageTx,off + t.cnt⟩ (tagIssues (logs.ring stageTx) current t).2 := by
  have positive := t.positive
  have small := (logs.ring stageTx).fits
  have addressable := (logs.ring stageTx).addressable
  have order := (logs.ring stageTx).nonempty
  obtain ⟨lower,upper⟩ := here.position
  simp only at lower upper
  have wraps := checkWrapAround_iff current t.cnt (logs.ring stageTx).last positive (by omega)
  by_cases room : current + t.cnt ≤ (logs.ring stageTx).last + 1
  · have stays : checkWrapAround current t.cnt (logs.ring stageTx).last = false := by
      rw [Bool.eq_false_iff,ne_eq,wraps]
      omega
    rw [tagIssues,stays]
    exact ⟨by simpa [ETag.dests] using straight_onLog here t.start room within,here.forward t.cnt room⟩
  · -- the part behind the end starts at the first block and cannot reach the end again
    obtain ⟨m,toEnd⟩ : ∃ m, current + m = (logs.ring stageTx).last + 1 := ⟨_,Nat.add_sub_cancel' upper⟩
    have inside : m < t.cnt := by omega
    have fits : (logs.ring stageTx).first + (t.cnt - m) ≤ (logs.ring stageTx).last + 1 := by
      simp only [Ring.size] at within
      omega
    have cut : blksToEnd current (logs.ring stageTx).last = m := by
      rw [blksToEnd_of_le _ _ upper (by simp only [Ring.size] at small; omega) (by omega)]
      omega
    have rest : sub32 t.cnt m = t.cnt - m := sub32_of_le (Nat.le_of_lt inside) t.fits
    have wrapped := here.wrap m toEnd
    have both : t.dests = (List.range m).map (t.start + ·) ++ (List.range (t.cnt - m)).map (t.start + m + ·) := by
      rw [ETag.dests,show t.cnt = m + (t.cnt - m) by omega,range_add,map_append,map_map,
        show m + (t.cnt - m) - m = t.cnt - m by omega]
      simp only [Function.comp_def,Nat.add_assoc]
    rw [tagIssues,if_pos (wraps.mpr (by omega))]
    simp only [cut,rest]
    constructor
    · rw [both,onLog_append,length_map,length_range]
      simp only [flatMap_cons,flatMap_nil,append_nil]
      rw [straight_onLog here t.start (Nat.le_of_eq toEnd) (by omega),straight_onLog wrapped (t.start + m) fits (by omega)]
    · have done := wrapped.forward (t.cnt - m) fits
      rwa [show off + m + (t.cnt - m) = off + t.cnt by omega] at done

def total (tags : List ETag) : Nat := (tags.map ETag.cnt).sum

theorem length_dests (tags : List ETag) : (tags.flatMap ETag.dests).length = total tags := by
  simp [total,length_flatMap,ETag.dests]

theorem total_append (ts us : List ETag) : total (ts ++ us) = total ts + total us := by
  simp [total]

theorem tagBlkIssues_onLog (here : At logs ⟨src,stageTx,off⟩ current) (tags : List ETag)
    (within : off + total tags ≤ (logs.ring stageTx).size) :
    (tagBlkIssues (logs.ring stageTx) current tags).1.flatMap Issue.copies =
        onLog (logs.ring stageTx) src off (tags.flatMap ETag.dests) ∧
      At logs ⟨src,stageTx,off + total tags⟩ (tagBlkIssues (logs.ring stageTx) current tags).2 := by
  induction tags generalizing off current with
  | nil => exact ⟨rfl,here⟩
  | cons t ts ih =>
    have sum : total (t :: ts) = t.cnt + total ts := by simp [total]
    rw [sum,← Nat.add_assoc] at within
    obtain ⟨first,next⟩ := tagIssues_onLog here t (by omega)
    obtain ⟨later,last⟩ := ih next within
    have length : t.dests.length = t.cnt := by simp [ETag.dests]
    rw [tagBlkIssues,flatMap_append,first,later,flatMap_cons,onLog_append,length,sum,← Nat.add_assoc]
    exact ⟨rfl,last⟩

theorem bls_onLog (here : At logs ⟨src,stageTx,off⟩ current) (blks : List (List ETag))
    (within : off + total blks.flatten ≤ (logs.ring stageTx).size) :
    (bls (logs.ring stageTx) current blks).flatten.flatMap Issue.copies =
      onLog (logs.ring stageTx) src off (blks.flatten.flatMap ETag.dests) := by
  induction blks generalizing off current with
  | nil => rfl
  | cons blk blks ih =>
    rw [flatten_cons,total_append,← Nat.add_assoc] at within
    obtain ⟨first,next⟩ := tagBlkIssues_onLog here blk (by omega)
    rw [bls,flatten_cons,flatMap_append,first,ih next within,flatten_cons,flatMap_append,onLog_append,length_dests]

theorem writeBl_readBl (source disk : Blks) (issues : List Issue) :
    writeBl disk (readBl source issues) = transfer source disk (issues.flatMap Issue.copies) := by
  rw [writeBl,readBl,foldl_map]
  rfl

theorem writeBls_readBl (source disk : Blks) (lists : List (List Issue)) :
    (lists.map (readBl source)).foldl writeBl disk = transfer source disk (lists.flatten.flatMap Issue.copies) := by
  induction lists generalizing disk with
  | nil => rfl
  | cons issues lists ih =>
    rw [map_cons,foldl_cons,ih,writeBl_readBl,flatten_cons,flatMap_append,transfer_append]

theorem readBl_congr (same : ∀ w ∈ issues.flatMap Issue.copies, source w.1 = other w.1) :
    readBl source issues = readBl other issues := by
  refine map_congr_left ?_
  intro w member
  rw [same w member]

def SameLogs (logs : Logs) (orig disk : Blks) : Prop := ∀ a, logs.journal.Holds a ∨ logs.stage.Holds a → disk a = orig a

def Outside (logs : Logs) (d : Nat) : Prop := ¬ logs.journal.Holds d ∧ ¬ logs.stage.Holds d

theorem SameLogs.update (same : SameLogs logs orig disk) (outside : Outside logs d) (content : Blk) :
    SameLogs logs orig (Function.update disk d content) := by
  intro a held
  have other : a ≠ d := by
    rintro rfl
    exact held.elim outside.1 outside.2
  rw [Function.update_of_ne other,same a held]

theorem SameLogs.transfer (same : SameLogs logs orig disk)
    (outside : ∀ d ∈ ws.map Prod.snd, Outside logs d) : SameLogs logs orig (transfer source disk ws) := by
  intro a held
  have other : lastSource ws a = none := by
    rw [lastSource_eq_none]
    intro member
    exact held.elim (outside a member).1 (outside a member).2
  rw [transfer_apply,other]
  exact same a held

theorem StageTx.writes_onLog (t : StageTx logs) : t.writes = onLog logs.stage t.srcStartBaddr 0 t.dests := by
  simp only [StageTx.writes,StageTx.dests,onLog,Nat.zero_add]

theorem StageTx.writes_dests (t : StageTx logs) : t.writes.map Prod.snd = t.dests := by
  rw [writes_onLog,onLog_dests]

theorem StageTx.writes_holds (t : StageTx logs) : ∀ w ∈ t.writes, logs.stage.Holds w.1 := by
  rw [writes_onLog]
  refine onLog_holds t.begins ?_
  rw [dests,length_dests,Nat.zero_add]
  exact t.fits

theorem StageTx.dests_nil {t : StageTx logs} (empty : t.descTags = []) : t.tags = [] := by
  rw [tags,tagBlks,empty,t.emptyDesc empty]
  rfl

def applyTx (orig : Blks) (disk : Blks) (t : StageTx logs) : Blks :=
  transfer orig (checkpointInode t (orig t.stageStart) disk) t.writes

theorem checkpointStageTx_eq {t : StageTx logs} (same : SameLogs logs orig disk)
    (outside : Outside logs t.inodeBaddr) :
    checkpointStageTx t (orig t.stageStart) disk = applyTx orig disk t := by
  have logged : SameLogs logs orig (checkpointInode t (orig t.stageStart) disk) := same.update outside _
  have start : At logs ⟨t.srcStartBaddr,true,0⟩ t.srcStartBaddr := ⟨t.begins,fun j _ => by rw [Nat.zero_add]⟩
  have copies := bls_onLog start t.tagBlks (by rw [Nat.zero_add]; exact t.fits)
  rw [checkpointStageTx,applyTx]
  by_cases empty : t.descTags = []
  · rw [if_pos empty,StageTx.writes,StageTx.dests_nil empty]
    rfl
  · rw [if_neg empty,writeBls_readBl]
    have ring : logs.ring true = logs.stage := rfl
    rw [ring] at copies
    rw [copies,← StageTx.tags,← StageTx.dests,← StageTx.writes_onLog]
    exact transfer_congr _ _ fun w member => logged _ (.inr (t.writes_holds w member))

theorem applyTx_logs {t : StageTx logs} (same : SameLogs logs orig disk)
    (outside : ∀ d ∈ t.inodeBaddr :: t.dests, Outside logs d) : SameLogs logs orig (applyTx orig disk t) := by
  refine (same.update (outside _ mem_cons_self) _).transfer ?_
  rw [t.writes_dests]
  exact fun d member => outside d (mem_cons_of_mem _ member)

def applyTxs (orig disk : Blks) (ts : List (StageTx logs)) : Blks := ts.foldl (applyTx orig) disk

theorem applyTxs_append (orig disk : Blks) (ts us : List (StageTx logs)) :
    applyTxs orig disk (ts ++ us) = applyTxs orig (applyTxs orig disk ts) us := foldl_append

def AllOutside (ts : List (StageTx logs)) : Prop := ∀ t ∈ ts, ∀ d ∈ t.inodeBaddr :: t.dests, Outside logs d

theorem applyTxs_logs {ts : List (StageTx logs)} (same : SameLogs logs orig disk) (outside : AllOutside ts) :
    SameLogs logs orig (applyTxs orig disk ts) := by
  induction ts generalizing disk with
  | nil => exact same
  | cons t ts ih =>
    exact ih (applyTx_logs same (outside t mem_cons_self)) fun u member => outside u (mem_cons_of_mem t member)

theorem readStageDescBlk_eq (same : SameLogs logs orig disk) (ts : List (StageTx logs)) :
    readStageDescBlk disk ts = ts.map fun t => (t,orig t.stageStart) := by
  refine map_congr_left ?_
  intro t _
  rw [same _ (.inr t.placed)]

theorem checkpointStageTraceBlk_eq {ts : List (StageTx logs)} (same : SameLogs logs orig disk) (outside : AllOutside ts) :
    checkpointStageTraceBlk disk ts = applyTxs orig disk ts := by
  rw [checkpointStageTraceBlk,readStageDescBlk_eq same,foldl_map,applyTxs]
  induction ts generalizing disk with
  | nil => rfl
  | cons t ts ih =>
    have here := outside t mem_cons_self
    rw [foldl_cons,foldl_cons,checkpointStageTx_eq same (here _ mem_cons_self)]
    exact ih (applyTx_logs same here) fun u member => outside u (mem_cons_of_mem t member)

def applyInodes (orig disk : Blks) (ts : List (StageTx logs)) : Blks :=
  ts.foldl (fun disk t => checkpointInode t (orig t.stageStart) disk) disk

theorem applyInodes_cons (orig disk : Blks) (t : StageTx logs) (ts : List (StageTx logs)) :
    applyInodes orig disk (t :: ts) = applyInodes orig (checkpointInode t (orig t.stageStart) disk) ts := rfl

theorem applyInodes_append (orig disk : Blks) (ts us : List (StageTx logs)) :
    applyInodes orig disk (ts ++ us) = applyInodes orig (applyInodes orig disk ts) us := foldl_append

theorem applyInodes_logs {ts : List (StageTx logs)} (same : SameLogs logs orig disk) (outside : AllOutside ts) :
    SameLogs logs orig (applyInodes orig disk ts) := by
  induction ts generalizing disk with
  | nil => exact same
  | cons t ts ih =>
    have here := outside t mem_cons_self
    exact ih (same.update (here _ mem_cons_self) _) fun u member => outside u (mem_cons_of_mem t member)

theorem stbScan_eq {blks : List (MetaBlk logs)} (same : SameLogs logs orig disk) (outside : AllOutside (stageTxs blks)) :
    stbScan disk blks = applyInodes orig disk (stageTxs blks) := by
  induction blks generalizing disk with
  | nil => rfl
  | cons m rest ih =>
    have later : AllOutside (stageTxs rest) := fun t member => outside t (mem_append_right _ member)
    cases m with
    | etag tags => exact ih same later
    | stageTrace txList =>
      have here : AllOutside txList := fun t member => outside t (mem_append_left _ member)
      rw [stbScan,readStageDescBlk_eq same,foldl_map]
      have both : stageTxs (.stageTrace txList :: rest) = txList ++ stageTxs rest := rfl
      rw [both,applyInodes_append]
      exact ih (applyInodes_logs same here) later

def journalWrites (tx : Tx logs) : List (Nat × Nat) :=
  onLog logs.journal (tx.jStartBaddr + 1) 0 ((journalTags tx).flatMap ETag.dests)

theorem Tx.position (tx : Tx logs) : logs.journal.Position (tx.jStartBaddr + 1) := by
  obtain ⟨lower,upper⟩ := tx.placed
  exact ⟨by omega,by omega⟩

theorem Tx.at_start (tx : Tx logs) : At logs ⟨tx.jStartBaddr + 1,false,0⟩ (tx.jStartBaddr + 1) :=
  ⟨tx.position,fun j _ => by rw [Nat.zero_add]⟩

theorem Tx.allOutside (tx : Tx logs) : AllOutside (stageTxs tx.metaBlks) := tx.destsOutside

theorem stageTxs_cons (m : MetaBlk logs) (rest : List (MetaBlk logs)) : stageTxs (m :: rest) = m.stageTxs ++ stageTxs rest := rfl

theorem etagBlks_cons (m : MetaBlk logs) (rest : List (MetaBlk logs)) : etagBlks (m :: rest) = m.etags ++ etagBlks rest := rfl

theorem bls_length (ring : LogRing) (src : Nat) (blks : List (List ETag)) : (bls ring src blks).length = blks.length := by
  induction blks generalizing src with
  | nil => rfl
  | cons blk blks ih => rw [bls,length_cons,ih,length_cons]

theorem tagBlk_reads {tx : Tx logs} {l : Loop} (same : SameLogs logs orig l.disk)
    (here : At logs ⟨tx.jStartBaddr + 1,false,off⟩ l.srcStartBaddr) (within : off + total tags ≤ logs.journal.size) :
    readBl l.disk (tagBlkIssues logs.journal l.srcStartBaddr tags).1 = readBl orig
    (tagBlkIssues logs.journal l.srcStartBaddr tags).1 := by
  refine readBl_congr ?_
  intro w member
  have copies := (tagBlkIssues_onLog here tags within).1
  have ring : logs.ring false = logs.journal := rfl
  rw [ring] at copies
  rw [copies] at member
  exact same _ (.inl (onLog_holds tx.position (by rw [length_dests]; exact within) w member))

theorem metaLoop_tags (tagged : tx.descTags ≠ []) (blks : List (MetaBlk logs))
    (calm : l.pendingDescTags = false) (same : SameLogs logs orig l.disk) (outside : AllOutside (stageTxs blks))
    (here : At logs ⟨tx.jStartBaddr + 1,false,off⟩ l.srcStartBaddr)
    (within : off + total (etagBlks blks).flatten ≤ logs.journal.size) :
    (metaLoop tx blks l).disk = applyTxs orig l.disk (stageTxs blks) ∧
      (metaLoop tx blks l).writeBls = l.writeBls ++ (bls logs.journal l.srcStartBaddr (etagBlks blks)).map (readBl orig) ∧
      l.nTags ≤ (metaLoop tx blks l).nTags := by
  induction blks generalizing l off with
  | nil => exact ⟨rfl,by simp [metaLoop,etagBlks,bls],Nat.le_refl _⟩
  | cons m rest ih =>
    have later : AllOutside (stageTxs rest) := fun t member => outside t (mem_append_right _ member)
    cases m with
    | stageTrace txList =>
      have first : AllOutside txList := fun t member => outside t (mem_append_left _ member)
      simp only [metaLoop,calm,Bool.false_eq_true,if_false]
      have applied := checkpointStageTraceBlk_eq same first
      have kept := applyTxs_logs same first
      obtain ⟨disk,writes,tags⟩ := ih
        (l := ⟨checkpointStageTraceBlk l.disk txList,l.srcStartBaddr,false,l.writeBls,l.nStgTraceBlks + 1,l.nTags⟩)
        rfl (by rw [applied]; exact kept) later here within
      refine ⟨?_,writes,tags⟩
      rw [disk,applied,stageTxs_cons,applyTxs_append]
      rfl
    | etag tags =>
      simp only [etagBlks_cons,MetaBlk.etags,cons_append,nil_append,flatten_cons,total_append,← Nat.add_assoc] at within
      simp only [metaLoop,if_neg tagged]
      have next := (tagBlkIssues_onLog here tags (by change _ ≤ logs.journal.size; omega)).2
      obtain ⟨disk,writes,more⟩ := ih (l := tagBlk logs tags l) calm same later next within
      refine ⟨disk,?_,Nat.le_trans (Nat.le_add_right _ _) more⟩
      rw [writes,etagBlks_cons]
      simp only [tagBlk,tagBlk_reads same here (show off + total tags ≤ logs.journal.size by omega),MetaBlk.etags,cons_append,
        nil_append,bls,map_cons,append_assoc]

/-- The stage transactions that the plain checkpoint comes to. -/
def reached (tx : Tx logs) : List (StageTx logs) :=
  if tx.descTags = [] then stageTxs (tx.metaBlks.take 1) else stageTxs tx.metaBlks

/-- With tags, the loop goes through all the blocks, with the tags of the descriptor before or after the first one. -/
theorem ckptLoop_tags (orig : Blks) {tx : Tx logs} (tagged : tx.descTags ≠ []) (known : tx.metaBlks = [] → beyond = false) :
    (ckptLoop beyond tx ⟨orig,tx.jStartBaddr + 1,false,[],0,0⟩).disk = applyTxs orig orig (stageTxs tx.metaBlks) ∧
      (ckptLoop beyond tx ⟨orig,tx.jStartBaddr + 1,false,[],0,0⟩).writeBls =
        (bls logs.journal (tx.jStartBaddr + 1) (tx.descTags :: etagBlks tx.metaBlks)).map (readBl orig) ∧
      0 < (ckptLoop beyond tx ⟨orig,tx.jStartBaddr + 1,false,[],0,0⟩).nTags := by
  have start : SameLogs logs orig orig := fun _ _ => rfl
  have fits := tx.fits
  rw [flatten_cons,← total,total_append] at fits
  have some : 0 < tx.descTags.length := length_pos_of_ne_nil tagged
  have desc : 0 + total tx.descTags ≤ logs.journal.size := by omega
  have next := (tagBlkIssues_onLog tx.at_start tx.descTags desc).2
  have within : 0 + total tx.descTags + total (etagBlks tx.metaBlks).flatten ≤ logs.journal.size := by omega
  have outside := tx.allOutside
  rw [ckptLoop]
  cases blks : tx.metaBlks with
  | nil =>
    rw [known blks,if_neg Bool.false_ne_true,if_neg tagged]
    refine ⟨rfl,?_,?_⟩
    · simp [metaLoop,tagBlk,bls,etagBlks]
    · simpa [metaLoop,tagBlk] using some
  | cons m rest =>
    rw [blks] at within outside
    cases m with
    | etag tags =>
      have first : (MetaBlk.etag tags : MetaBlk logs).isStageTraceBlk = false := rfl
      simp only [first,Bool.false_eq_true,if_false,if_neg tagged]
      obtain ⟨disk,writes,more⟩ :=
        metaLoop_tags tagged (.etag tags :: rest) (l := tagBlk logs tx.descTags ⟨orig,tx.jStartBaddr + 1,false,[],0,0⟩)
        rfl start outside next within
      refine ⟨disk,writes,Nat.lt_of_lt_of_le ?_ more⟩
      simpa [tagBlk] using some
    | stageTrace txList =>
      have first : (MetaBlk.stageTrace txList : MetaBlk logs).isStageTraceBlk = true := rfl
      have here : AllOutside txList := fun t member => outside t (mem_append_left _ member)
      have later : AllOutside (stageTxs rest) := fun t member => outside t (mem_append_right _ member)
      have applied := checkpointStageTraceBlk_eq start here
      have kept : SameLogs logs orig (checkpointStageTraceBlk orig txList) := by
        rw [applied]
        exact applyTxs_logs start here
      simp only [first,if_true,metaLoop,if_neg tagged]
      obtain ⟨disk,writes,more⟩ := metaLoop_tags tagged rest
        (l := { tagBlk logs tx.descTags ⟨checkpointStageTraceBlk orig txList,tx.jStartBaddr + 1,true,[],1,0⟩ with
            pendingDescTags := false })
        rfl kept later next within
      refine ⟨?_,?_,Nat.lt_of_lt_of_le ?_ more⟩
      · rw [disk]
        simp only [tagBlk,applied]
        rw [stageTxs_cons,applyTxs_append]
        rfl
      · have reads :=
          tagBlk_reads (l := ⟨checkpointStageTraceBlk orig txList,tx.jStartBaddr + 1,true,[],1,0⟩) kept tx.at_start desc
        rw [writes]
        simp only [tagBlk] at reads ⊢
        rw [reads]
        rfl
      · simpa [tagBlk] using some

theorem doCheckpoint_eq {tx : Tx logs} (known : tx.metaBlks = [] → beyond = false) (s : DevFs) :
    doCheckpoint beyond tx s =
      release tx { s with disk := transfer s.disk (applyTxs s.disk s.disk (reached tx)) (journalWrites tx) } := by
  rw [doCheckpoint]
  by_cases untagged : tx.descTags = []
  · -- the loop is left in its first block
    obtain ⟨m,rest,blks⟩ := exists_cons_of_ne_nil (tx.nonempty.resolve_left (not_not.mpr untagged))
    have etags := tx.emptyDesc untagged
    cases m with
    | etag tags => simp [blks,etagBlks_cons,MetaBlk.etags] at etags
    | stageTrace txList =>
      have here : AllOutside txList := by
        intro t member
        refine tx.allOutside t ?_
        rw [blks]
        exact mem_append_left _ member
      have start : SameLogs logs s.disk s.disk := fun _ _ => rfl
      have applied := checkpointStageTraceBlk_eq start here
      have first : (MetaBlk.stageTrace txList : MetaBlk logs).isStageTraceBlk = true := rfl
      have one : stageTxs [MetaBlk.stageTrace txList] = txList := append_nil txList
      simp only [ckptLoop,blks,first,if_true,metaLoop,untagged,nDataBufs,length_nil,ne_eq,not_true,if_false,Nat.zero_add,
        Nat.one_ne_zero,false_and,foldl_nil,applied,reached,take_succ_cons,take_zero,one,journalWrites,journalTags]
      rfl
  · obtain ⟨disk,writes,tags⟩ := ckptLoop_tags s.disk untagged known
    have copies := bls_onLog tx.at_start (tx.descTags :: etagBlks tx.metaBlks) (by rw [Nat.zero_add]; exact tx.fits)
    have ring : logs.ring false = logs.journal := rfl
    rw [ring] at copies
    have counted : (ckptLoop beyond tx ⟨s.disk,tx.jStartBaddr + 1,false,[],0,0⟩).writeBls.length = nDataBufs tx := by
      rw [writes,length_map,bls_length,nDataBufs,if_neg untagged,length_cons]
    simp only [counted,ne_eq,not_true,if_false]
    rw [if_neg (by omega),disk,writes,writeBls_readBl,copies,reached,if_neg untagged,journalWrites,journalTags,if_neg untagged]

theorem doCheckpoint_beyond (bare : tx.metaBlks = []) (s : DevFs) : doCheckpoint true tx s = none := by
  have tagged : tx.descTags ≠ [] := tx.nonempty.resolve_right (not_not.mpr bare)
  simp [doCheckpoint,ckptLoop,bare,metaLoop,nDataBufs,tagged]

/-! The coalescing checkpoint. -/

def stageWrites (ts : List (StageTx logs)) : List (Nat × Nat) := ts.flatMap StageTx.writes

theorem stageWrites_append (ts us : List (StageTx logs)) : stageWrites (ts ++ us) = stageWrites ts ++ stageWrites us :=
  flatMap_append

theorem StageTx.tags_nil {t : StageTx logs} (empty : t.tags = []) : t.descTags = [] := by
  rw [tags,tagBlks,flatten_cons,append_eq_nil_iff] at empty
  exact empty.1

def StageTx.group (t : StageTx logs) (some : t.tags ≠ []) : TagGroup logs :=
  ⟨t.srcStartBaddr,true,t.tags,some,t.begins,t.fits⟩

def stageGroups (ts : List (StageTx logs)) : List (TagGroup logs) :=
  ts.flatMap fun t => if some : t.tags ≠ [] then [t.group some] else []

section

variable (tx : Tx logs)

theorem journalTags_fits : ((journalTags tx).map ETag.cnt).sum ≤ logs.journal.size := by
  rw [journalTags]
  split
  next => exact Nat.zero_le _
  next => exact tx.fits

def journalGroups : List (TagGroup logs) :=
  if some :
    journalTags tx ≠ [] then [⟨tx.jStartBaddr + 1,false,journalTags tx,some,tx.position,journalTags_fits tx⟩] else []

def groups : List (TagGroup logs) := stageGroups (stageTxs tx.metaBlks) ++ journalGroups tx

theorem groups_tagList : tagList (groups tx) = (stageTxs tx.metaBlks).flatMap stageNodes ++ journalNodes tx := by
  rw [groups,tagList,flatMap_append,stageGroups,flatMap_assoc]
  refine congrArg₂ (· ++ ·) (flatMap_congr ?_) ?_
  · intro t _
    by_cases empty : t.tags = []
    · simp [empty,stageNodes,StageTx.tags_nil empty]
    · have desc : t.descTags ≠ [] := mt StageTx.dests_nil empty
      simp [empty,stageNodes,desc,TagGroup.nodes,StageTx.group]
  · by_cases empty : journalTags tx = []
    · simp [journalGroups,journalNodes,empty]
    · simp [journalGroups,journalNodes,empty,TagGroup.nodes]

theorem groups_tagWrites : tagWrites (groups tx) = stageWrites (stageTxs tx.metaBlks) ++ journalWrites tx := by
  rw [groups,tagWrites,flatMap_append,stageGroups,flatMap_assoc]
  refine congrArg₂ (· ++ ·) (flatMap_congr ?_) ?_
  · intro t _
    by_cases empty : t.tags = []
    · simp [empty,StageTx.writes]
    · simp only [ne_eq,empty,not_false_iff,dif_pos,flatMap_cons,flatMap_nil,append_nil]
      rfl
  · by_cases empty : journalTags tx = []
    · simp [journalGroups,journalWrites,onLog,empty]
    · simp only [journalGroups,ne_eq,empty,not_false_iff,dif_pos,flatMap_cons,flatMap_nil,append_nil,journalWrites,onLog,
        Nat.zero_add]
      rfl

end

theorem StageTx.first_source {t : StageTx logs} (some : t.tags ≠ []) : logs.stage.block t.srcStartBaddr 0 ∈ t.logBlks := by
  refine mem_cons_of_mem _ (mem_map.mpr ?_)
  have dests := group_dests_ne_nil (t.group some)
  obtain ⟨d,ds,shape⟩ := exists_cons_of_ne_nil dests
  have same : t.tags.flatMap ETag.dests = d :: ds := shape
  refine ⟨(logs.stage.block t.srcStartBaddr 0,d),?_,rfl⟩
  rw [StageTx.writes,same,mapIdx_cons]
  exact mem_cons_self

theorem groups_grouped (tx : Tx logs) : Grouped (groups tx) := by
  refine List.Pairwise.isChain ?_
  rw [groups,pairwise_append]
  refine ⟨?_,?_,?_⟩
  · rw [stageGroups,pairwise_flatMap]
    refine ⟨?_,tx.apart.imp ?_⟩
    · intro t _
      split <;> simp
    · intro t u apart g first h second same
      split at first <;> split at second
      next some some' =>
        rw [mem_singleton] at first second
        subst first second
        have shared := StageTx.first_source some'
        rw [← show t.srcStartBaddr = u.srcStartBaddr from same] at shared
        exact apart _ (StageTx.first_source some) shared
      all_goals simp_all
  · rw [journalGroups]
    split <;> simp
  · intro g first h second same
    obtain ⟨t,-,member⟩ := mem_flatMap.mp first
    split at member
    next some =>
      rw [mem_singleton] at member
      subst member
      rw [journalGroups] at second
      split at second
      next =>
        rw [mem_singleton] at second
        subst second
        -- the block before the source would be in both logs
        have position := t.begins
        have start := t.placed
        have here : t.stageStart + t.etagBlks.length + 1 = tx.jStartBaddr + 1 := same
        have begins := tx.placed
        refine tx.logsApart tx.jStartBaddr begins ?_
        simp only [Ring.Holds,Ring.Position] at *
        omega
      next => simp at second
    next => simp at member

theorem Tx.writes_logs (tx : Tx logs) (w : Nat × Nat) (member : w ∈ stageWrites (stageTxs tx.metaBlks) ++ journalWrites tx) :
    (logs.journal.Holds w.1 ∨ logs.stage.Holds w.1) ∧ Outside logs w.2 := by
  rcases mem_append.mp member with stage | journal
  · obtain ⟨t,named,written⟩ := mem_flatMap.mp stage
    have dest : w.2 ∈ t.dests := by
      rw [← t.writes_dests]
      exact mem_map_of_mem written
    exact ⟨.inr (t.writes_holds w written),tx.destsOutside t named _ (mem_cons_of_mem _ dest)⟩
  · have dest : w.2 ∈ (journalTags tx).flatMap ETag.dests := by
      have dests := onLog_dests logs.journal (tx.jStartBaddr + 1) 0 ((journalTags tx).flatMap ETag.dests)
      rw [← journalWrites] at dests
      rw [← dests]
      exact mem_map_of_mem journal
    have within : 0 + ((journalTags tx).flatMap ETag.dests).length ≤ logs.journal.size := by
      rw [length_dests,Nat.zero_add]
      exact journalTags_fits tx
    refine ⟨.inl (onLog_holds tx.position within w journal),?_⟩
    rw [journalTags] at dest
    split at dest
    next => simp at dest
    next => exact tx.outside w.2 dest

theorem dispatched_eq (same : SameLogs logs orig disk) (dispatched : List (List Issue))
    (apart : ∀ w ∈ issuedCopies dispatched, (logs.journal.Holds w.1 ∨ logs.stage.Holds w.1) ∧ Outside logs w.2) :
    dispatched.foldl (fun disk issues => writeBl disk (readBl disk issues)) disk = transfer orig disk
    (issuedCopies dispatched) := by
  induction dispatched generalizing disk with
  | nil => rfl
  | cons issues rest ih =>
    have both : issuedCopies (issues :: rest) = issues.flatMap Issue.copies ++ issuedCopies rest := by
      rw [issuedCopies,flatten_cons,flatMap_append,issuedCopies]
    rw [both] at apart ⊢
    have first : writeBl disk (readBl disk issues) = transfer orig disk (issues.flatMap Issue.copies) := by
      rw [writeBl_readBl]
      exact transfer_congr _ _ fun w member => same _ (apart w (mem_append_left _ member)).1
    rw [foldl_cons,first,transfer_append]
    refine ih (same.transfer ?_) fun w member => apart w (mem_append_right _ member)
    intro d member
    obtain ⟨w,written,rfl⟩ := mem_map.mp member
    exact (apart w (mem_append_left _ written)).2

theorem doCheckpointCoalesce_eq (maxBufSize : Nat) (tx : Tx logs) (s : DevFs) :
    doCheckpointCoalesce maxBufSize tx s =
      release tx { s with
        disk := transfer s.disk (applyInodes s.disk s.disk (stageTxs tx.metaBlks))
          (stageWrites (stageTxs tx.metaBlks) ++ journalWrites tx) } := by
  have start : SameLogs logs s.disk s.disk := fun _ _ => rfl
  have inodes := stbScan_eq start tx.allOutside
  have kept := applyInodes_logs start tx.allOutside
  obtain ⟨dispatched,passes,issued⟩ := doCheckpointCoalesce_copies maxBufSize (groups tx) (groups_grouped tx)
  rw [groups_tagList] at passes
  rw [groups_tagWrites] at issued
  have some : ¬ (tx.metaBlks.filter MetaBlk.isStageTraceBlk = [] ∧ journalTags tx = []) := by
    rintro ⟨traces,tags⟩
    by_cases untagged : tx.descTags = []
    · obtain ⟨m,rest,blks⟩ := exists_cons_of_ne_nil (tx.nonempty.resolve_left (not_not.mpr untagged))
      have etags := tx.emptyDesc untagged
      cases m with
      | etag tags => simp [blks,etagBlks_cons,MetaBlk.etags] at etags
      | stageTrace txList => simp [blks,MetaBlk.isStageTraceBlk] at traces
    · rw [journalTags,if_neg untagged,flatten_cons,append_eq_nil_iff] at tags
      exact untagged tags.1
  have apart : ∀ w ∈ issuedCopies dispatched, (logs.journal.Holds w.1 ∨ logs.stage.Holds w.1) ∧ Outside logs w.2 := by
    rw [issued]
    exact fun w member => tx.writes_logs w (lastWrites_subset _ w member)
  rw [doCheckpointCoalesce,if_neg some,passes,Option.bind_some,inodes,dispatched_eq kept dispatched apart,issued]
  congr 2
  funext d
  rw [transfer_apply,transfer_apply,lastSource_lastWrites]

end Oxbow.DevFS.Ckpt
