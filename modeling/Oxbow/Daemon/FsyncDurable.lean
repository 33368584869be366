import Oxbow.Daemon.Fsync

/-! What a returned `stage_file` guarantees. Every page write is durable, dirty, on a
waiting list or in the private lists of some call; a call that finds the pages it owes in
one of the first three places makes them durable before it returns. -/
namespace Oxbow.Daemon.Fsync

open Oxbow.Lib Function List

def Call.Holds (call : Call) (w : PageWrite) : Prop :=
  w ∈ call.snap ∨ w ∈ call.filled ∨ ∃ df, w ∈ call.waitingList df

/-- Where a call between its start and its return can still find a page it owes. -/
def Covers (s : State) (call : Call) (w : PageWrite) : Prop :=
  match call.pc with
  | .idle | .started => True
  | .cutting left => w ∈ call.snap ∨ (∃ df, w ∈ call.waitingList df) ∨ ∃ df ∈ left, w ∈ s.waiting df
  | .gathered => w ∈ call.snap ∨ ∃ df, w ∈ call.waitingList df
  | .examining left => w ∈ call.filled ∨ ∃ df ∈ left, w ∈ call.waitingList df
  | .returned ret => ret ≠ 0

def Carried (s : State) (df : Fetcher) (tid : Option Nat) (w : PageWrite) : Prop :=
  ∃ tx, s.inflight df = some tx ∧ w ∈ tx.pages ∧ s.waitingTxid df = some tx.tid ∧ tid = some tx.tid

structure CallOk (s : State) (c : Nat) (call : Call) : Prop where
  known : ∀ w ∈ call.owed, w ∈ s.history
  taken : ∀ df, ∀ w ∈ call.waitingList df, Durable s w ∨ Carried s df (call.waitingTxid df) w
  covered : ∀ w ∈ call.owed, Durable s w ∨ Covers s call w
  locked : ∀ left, call.pc = .cutting left → s.holder = some c
  early : call.pc = .idle ∨ call.pc = .started → ∀ w, ¬ call.Holds w
  uncut : ∀ left, call.pc = .cutting left → left.Nodup ∧ ∀ df ∈ left, call.waitingList df = []
  unfilled : (∃ left, call.pc = .cutting left) ∨ call.pc = .gathered → call.filled = []

structure Invariant (s : State) : Prop where
  located : ∀ w ∈ s.history, Durable s w ∨ w ∈ s.dirty ∨ (∃ df, w ∈ s.waiting df) ∨ ∃ c, (s.calls c).Holds w
  waiting : ∀ df, ∀ w ∈ s.waiting df, Carried s df (s.waitingTxid df) w
  calls : ∀ c, CallOk s c (s.calls c)

/-- What a step may do without call `c` noticing. -/
structure Unnoticed (s t : State) (c : Nat) : Prop where
  history : ∀ w ∈ s.history, w ∈ t.history
  durable : ∀ w, Durable s w → Durable t w
  carried : ∀ df tid w, Carried s df tid w → Durable t w ∨ Carried t df tid w
  waiting : s.holder = some c → ∀ df, ∀ w ∈ s.waiting df, Durable t w ∨ w ∈ t.waiting df
  holder : s.holder = some c → t.holder = some c

theorem CallOk.mono (ok : CallOk s c call) (unnoticed : Unnoticed s t c) : CallOk t c call := by
  refine ⟨?_,?_,?_,?_,ok.early,ok.uncut,ok.unfilled⟩
  · exact fun w owed => unnoticed.history w (ok.known w owed)
  · intro df w member
    rcases ok.taken df w member with durable | carried
    · exact .inl (unnoticed.durable w durable)
    · exact unnoticed.carried df _ w carried
  · intro w owed
    rcases ok.covered w owed with durable | covers
    · exact .inl (unnoticed.durable w durable)
    · cases pc : call.pc with
      | cutting left =>
        simp only [Covers,pc] at covers ⊢
        rcases covers with snap | taken | ⟨df,inLeft,waits⟩
        · exact .inr (.inl snap)
        · exact .inr (.inr (.inl taken))
        · rcases unnoticed.waiting (ok.locked left pc) df w waits with durable | waits
          · exact .inl durable
          · exact .inr (.inr (.inr ⟨df,inLeft,waits⟩))
      | _ =>
        simp only [Covers,pc] at covers ⊢
        exact .inr covers
  · exact fun left pc => unnoticed.holder (ok.locked left pc)

@[simp] theorem setCall_calls (s : State) (c : Nat) (call : Call) :
    (s.setCall c call).calls = update s.calls c call := rfl

theorem calls_update (s t : State) (c : Nat) (call : Call) (calls : t.calls = update s.calls c call)
    (ok : ∀ d, CallOk s d (s.calls d)) (mine : CallOk t c call)
    (others : ∀ d, d ≠ c → Unnoticed s t d) : ∀ d, CallOk t d (t.calls d) := by
  intro d
  rw [calls]
  by_cases same : d = c
  · subst same
    rwa [update_self]
  · rw [update_of_ne same]
    exact (ok d).mono (others d same)

theorem held_update (s : State) (c : Nat) (call : Call) (w : PageWrite)
    (kept : (s.calls c).Holds w → P ∨ call.Holds w) (held : ∃ d, (s.calls d).Holds w) :
    P ∨ ∃ d, (update s.calls c call d).Holds w := by
  obtain ⟨d,held⟩ := held
  by_cases same : d = c
  · subst same
    rcases kept held with p | mine
    · exact .inl p
    · exact .inr ⟨d,by rwa [update_self]⟩
  · exact .inr ⟨d,by rwa [update_of_ne same]⟩

theorem init_invariant (deleted : Bool) : Invariant (init deleted) := by
  refine ⟨by simp [init],by simp [init],?_⟩
  intro c
  exact ⟨by simp [init,Call.fresh],by simp [init,Call.fresh],by simp [init,Call.fresh],
    by simp [init,Call.fresh],by simp [init,Call.fresh,Call.Holds],by simp [init,Call.fresh],
    by simp [init,Call.fresh]⟩

theorem Unnoticed.setCall (s : State) (c d : Nat) (call : Call) : Unnoticed s (s.setCall c call) d :=
  ⟨fun _ known => known,fun _ durable => durable,fun _ _ _ carried => .inr carried,
    fun _ _ _ waits => .inr waits,id⟩

theorem setCall_preserves (s : State) (c : Nat) (call : Call) (inv : Invariant s) (mine : CallOk s c call)
    (kept : ∀ w, (s.calls c).Holds w → Durable s w ∨ call.Holds w) : Invariant (s.setCall c call) := by
  refine ⟨?_,inv.waiting,?_⟩
  · intro w known
    rcases inv.located w known with durable | dirty | waits | held
    · exact .inl durable
    · exact .inr (.inl dirty)
    · exact .inr (.inr (.inl waits))
    · rcases held_update s c call w (kept w) held with durable | held
      · exact .inl durable
      · exact .inr (.inr (.inr held))
  · exact calls_update s _ c call rfl inv.calls (mine.mono (.setCall s c c call))
      fun d _ => .setCall s c d call

theorem write_preserves {pos count : Nat} (inv : Invariant s) (done : write s pos count = some t) : Invariant t := by
  simp only [write] at done
  split at done
  · cases done
  cases done
  refine ⟨?_,inv.waiting,?_⟩
  · intro w known
    rcases mem_append.mp known with known | new
    · rcases inv.located w known with durable | dirty | waits | held
      · exact .inl durable
      · exact .inr (.inl (mem_append_left _ dirty))
      · exact .inr (.inr (.inl waits))
      · exact .inr (.inr (.inr held))
    · exact .inr (.inl (mem_append_right _ new))
  · intro c
    apply (inv.calls c).mono
    exact ⟨fun w known => mem_append_left _ known,fun _ durable => durable,
      fun _ _ _ carried => .inr carried,fun _ _ _ waits => .inr waits,id⟩

theorem start_preserves (inv : Invariant s) (live : s.deleted = false) (done : start s c = some t) :
    Invariant t := by
  obtain ⟨idle,⟨⟩⟩ := Option.ite_none_right_eq_some.mp done
  have empty := (inv.calls c).early (.inl idle)
  apply setCall_preserves s c _ inv
  · refine ⟨?_,?_,?_,?_,?_,?_,?_⟩
    · intro w owed
      exact (mem_filter.mp owed).1
    · exact fun df w member => absurd (.inr (.inr ⟨df,member⟩)) (empty w)
    · intro w _
      simp [Covers,live]
    · simp [live]
    · exact fun _ w held => empty w held
    · simp [live]
    · simp [live]
  · exact fun w held => absurd held (empty w)

theorem CallOk.fail (ok : CallOk s c call) : CallOk s c { call with pc := .returned (-1) } :=
  ⟨ok.known,ok.taken,fun _ _ => .inr (by simp [Covers]),by simp,by simp,by simp,by simp⟩

theorem noStageTx_preserves (inv : Invariant s) (done : noStageTx s c = some t) : Invariant t := by
  obtain ⟨-,⟨⟩⟩ := Option.ite_none_right_eq_some.mp done
  exact setCall_preserves s c _ inv (inv.calls c).fail fun _ held => .inr held

theorem Unnoticed.lock (s : State) (c d : Nat) (free : s.holder = none) :
    Unnoticed s { s with holder := some c } d :=
  ⟨fun _ known => known,fun _ durable => durable,fun _ _ _ carried => .inr carried,
    fun held => absurd held (by simp [free]),fun held => absurd held (by simp [free])⟩

theorem lock_preserves (c : Nat) (inv : Invariant s) (free : s.holder = none) :
    Invariant { s with holder := some c } :=
  ⟨inv.located,inv.waiting,fun d => (inv.calls d).mono (.lock s c d free)⟩

theorem stageInodeFails_preserves (inv : Invariant s) (done : stageInodeFails s c = some t) :
    Invariant t := by
  obtain ⟨ready,⟨⟩⟩ := Option.ite_none_right_eq_some.mp done
  have locked := lock_preserves c inv ready.2
  exact setCall_preserves _ c _ locked (locked.calls c).fail fun _ held => .inr held

theorem State.dirty_split (s : State) (dirty : w ∈ s.dirty) : w ∈ s.gathered ∨ w ∈ s.left := by
  by_cases marked : w.page / nrPagesInPeb ∈ s.groups
  · exact .inl (mem_filter.mpr ⟨dirty,decide_eq_true marked⟩)
  · exact .inr (mem_filter.mpr ⟨dirty,decide_eq_true marked⟩)

theorem gather_preserves (inv : Invariant s)
    (marked : ∀ w ∈ (s.calls c).owed, w ∈ s.dirty → w.page / nrPagesInPeb ∈ s.groups)
    (alone : ∀ d, d ≠ c → ∀ w, (s.calls d).Holds w → Durable s w) (done : gather s c = some t) :
    Invariant t := by
  obtain ⟨ready,done⟩ := Option.ite_none_right_eq_some.mp done
  obtain ⟨started,free⟩ := ready
  cases done
  have empty := (inv.calls c).early (.inr started)
  have found : ∀ w ∈ s.history, Durable s w ∨ w ∈ s.dirty ∨ ∃ df, w ∈ s.waiting df := by
    intro w known
    rcases inv.located w known with durable | dirty | waits | ⟨d,held⟩
    · exact .inl durable
    · exact .inr (.inl dirty)
    · exact .inr (.inr waits)
    · by_cases same : d = c
      · subst same
        exact absurd held (empty w)
      · exact .inl (alone d same w held)
  refine ⟨?_,inv.waiting,?_⟩
  · intro w known
    rcases found w known with durable | dirty | waits
    · exact .inl durable
    · rcases s.dirty_split dirty with taken | stays
      · exact .inr (.inr (.inr ⟨c,.inl (by simpa using taken)⟩))
      · exact .inr (.inl stays)
    · exact .inr (.inr (.inl waits))
  · apply calls_update s _ c _ rfl inv.calls
    · refine ⟨(inv.calls c).known,?_,?_,?_,?_,?_,?_⟩
      · exact fun df w member => absurd (.inr (.inr ⟨df,member⟩)) (empty w)
      · intro w owed
        rcases found w ((inv.calls c).known w owed) with durable | dirty | ⟨df,waits⟩
        · exact .inl durable
        · exact .inr (.inl (mem_filter.mpr ⟨dirty,decide_eq_true (marked w owed dirty)⟩))
        · exact .inr (.inr (.inr ⟨df,by cases df <;> simp,waits⟩))
      · exact fun _ _ => rfl
      · simp
      · intro left pc
        cases pc
        refine ⟨by decide,?_⟩
        intro df _
        exact eq_nil_iff_forall_not_mem.mpr fun w member => empty w (.inr (.inr ⟨df,member⟩))
      · intro _
        exact eq_nil_iff_forall_not_mem.mpr fun w member => empty w (.inr (.inl member))
    · intro d _
      exact ⟨fun _ known => known,fun _ durable => durable,fun _ _ _ carried => .inr carried,
        fun held => absurd held (by simp [free]),fun held => absurd held (by simp [free])⟩

theorem cutting_rest (call : Call) (df : Fetcher) (left : List Fetcher) (s t : State) (w : PageWrite)
    (covers : w ∈ call.snap ∨ (∃ e, w ∈ call.waitingList e) ∨ ∃ e ∈ df :: left, w ∈ s.waiting e)
    (next : Call) (nextPc : next.pc = if left = [] then .gathered else .cutting left) (snap : next.snap = call.snap)
    (taken : ∀ e, ∀ v ∈ call.waitingList e, v ∈ next.waitingList e)
    (mine : ∀ v ∈ s.waiting df, v ∈ next.waitingList df)
    (others : ∀ e ∈ left, ∀ v ∈ s.waiting e, v ∈ t.waiting e) : Covers t next w := by
  have found : w ∈ next.snap ∨ (∃ e, w ∈ next.waitingList e) ∨ ∃ e ∈ left, w ∈ t.waiting e := by
    rcases covers with inSnap | ⟨e,inList⟩ | ⟨e,inLeft,waits⟩
    · exact .inl (snap ▸ inSnap)
    · exact .inr (.inl ⟨e,taken e w inList⟩)
    · rcases mem_cons.mp inLeft with rfl | inLeft
      · exact .inr (.inl ⟨e,mine w waits⟩)
      · exact .inr (.inr ⟨e,inLeft,others e inLeft w waits⟩)
  by_cases last : left = []
  · subst last
    rw [if_pos rfl] at nextPc
    simpa [Covers,nextPc] using found
  · rw [if_neg last] at nextPc
    simpa [Covers,nextPc] using found

/-- A call in its critical section is the only one that sees the lock move. -/
theorem Unnoticed.critical (s t : State) (c d : Nat) (holder : s.holder = some c) (other : d ≠ c)
    (history : t.history = s.history) (durable : ∀ w, Durable s w → Durable t w)
    (carried : ∀ df tid w, Carried s df tid w → Carried t df tid w) : Unnoticed s t d := by
  have apart : s.holder ≠ some d := by
    rw [holder]
    intro same
    exact other (Option.some.inj same).symm
  exact ⟨fun w known => history ▸ known,durable,fun df tid w held => .inr (carried df tid w held),
    fun held => absurd held apart,fun held => absurd held apart⟩

theorem waiting_nil_of_nothing (inv : Invariant s) (nothing : nothingWaits s df = true) :
    s.waiting df = [] := by
  apply eq_nil_iff_forall_not_mem.mpr
  intro w waits
  obtain ⟨tx,_,_,txid,_⟩ := inv.waiting df w waits
  simp only [nothingWaits,decide_eq_true_eq] at nothing
  rcases nothing with noTx | empty
  · rw [noTx] at txid
    cases txid
  · rw [empty] at waits
    cases waits

theorem cut_taken (inv : Invariant s) (df : Fetcher) :
    (if nothingWaits s df then [] else s.waiting df) = s.waiting df ∧
    (if nothingWaits s df then s.waiting df else []) = [] := by
  by_cases nothing : nothingWaits s df = true
  · have empty := waiting_nil_of_nothing inv nothing
    simp [nothing,empty]
  · simp [nothing]

def cutCall (s : State) (c : Nat) (df : Fetcher) (left : List Fetcher) : Call :=
  { s.calls c with
    pc := if left = [] then .gathered else .cutting left
    waitingTxid := update (s.calls c).waitingTxid df (if nothingWaits s df then none else s.waitingTxid df)
    waitingList := update (s.calls c).waitingList df (s.waiting df) }

def cutState (s : State) (c : Nat) (df : Fetcher) (left : List Fetcher) : State :=
  { s.setCall c (cutCall s c df left) with
    holder := if left = [] then none else s.holder
    waiting := update s.waiting df [] }

theorem cut_eq (inv : Invariant s) (pc : (s.calls c).pc = .cutting (df :: left)) :
    cut s c = some (cutState s c df left) := by
  obtain ⟨whole,emptied⟩ := cut_taken inv df
  simp only [cut,pc,whole,emptied]
  rfl

theorem cutCall_keeps (ok : CallOk s c (s.calls c)) (pc : (s.calls c).pc = .cutting (df :: left)) (e : Fetcher)
    (v : PageWrite) (member : v ∈ (s.calls c).waitingList e) : v ∈ (cutCall s c df left).waitingList e := by
  by_cases same : e = df
  · subst same
    rw [(ok.uncut _ pc).2 e mem_cons_self] at member
    cases member
  · simpa [cutCall,update_of_ne same] using member

theorem cutCall_pc (ok : CallOk s c (s.calls c)) (pc : (s.calls c).pc = .cutting (df :: left))
    (same : (cutCall s c df left).pc = .cutting l) : (cutState s c df left).holder = some c ∧ l = left := by
  simp only [cutCall] at same
  simp only [cutState]
  by_cases last : left = []
  · rw [if_pos last] at same
    cases same
  · rw [if_neg last] at same ⊢
    cases same
    exact ⟨ok.locked _ pc,rfl⟩

theorem cutCall_started : ¬ ((cutCall s c df left).pc = .idle ∨ (cutCall s c df left).pc = .started) := by
  by_cases last : left = [] <;> simp [cutCall,last]

theorem cutCall_ok (inv : Invariant s) (pc : (s.calls c).pc = .cutting (df :: left)) :
    CallOk (cutState s c df left) c (cutCall s c df left) := by
  have ok := inv.calls c
  obtain ⟨distinct,uncut⟩ := ok.uncut _ pc
  obtain ⟨fresh,distinct⟩ := nodup_cons.mp distinct
  have other : ∀ e ∈ left, e ≠ df := fun e inLeft same => fresh (same ▸ inLeft)
  refine ⟨ok.known,?_,?_,?_,?_,?_,fun _ => ok.unfilled (.inl ⟨_,pc⟩)⟩
  · intro e w member
    by_cases same : e = df
    · subst same
      simp only [cutCall,update_self] at member ⊢
      have some : ¬ nothingWaits s e = true := by
        intro nothing
        rw [waiting_nil_of_nothing inv nothing] at member
        cases member
      rw [if_neg some]
      exact .inr (inv.waiting e w member)
    · simp only [cutCall,update_of_ne same] at member ⊢
      exact ok.taken e w member
  · intro w owed
    have owes := ok.covered w owed
    simp only [Covers,pc] at owes
    rcases owes with durable | covers
    · exact .inl durable
    · refine .inr (cutting_rest (s.calls c) df left s _ w covers _ rfl rfl (cutCall_keeps ok pc) ?_ ?_)
      · intro v waits
        simpa [cutCall] using waits
      · intro e inLeft v waits
        simpa [cutState,update_of_ne (other e inLeft)] using waits
  · exact fun l same => (cutCall_pc ok pc same).1
  · exact fun idle => absurd idle cutCall_started
  · intro l same
    obtain ⟨-,rfl⟩ := cutCall_pc ok pc same
    refine ⟨distinct,?_⟩
    intro e inLeft
    simpa [cutCall,update_of_ne (other e inLeft)] using uncut e (mem_cons_of_mem _ inLeft)

theorem cutState_located (inv : Invariant s) (pc : (s.calls c).pc = .cutting (df :: left)) (known : w ∈ s.history) :
    Durable s w ∨ w ∈ s.dirty ∨ (∃ e, w ∈ (cutState s c df left).waiting e) ∨
      ∃ d, ((cutState s c df left).calls d).Holds w := by
  rcases inv.located w known with durable | dirty | ⟨e,waits⟩ | held
  · exact .inl durable
  · exact .inr (.inl dirty)
  · by_cases same : e = df
    · subst same
      exact .inr (.inr (.inr ⟨c,.inr (.inr ⟨e,by simpa [cutState,cutCall] using waits⟩)⟩))
    · exact .inr (.inr (.inl ⟨e,by simpa [cutState,update_of_ne same] using waits⟩))
  · refine .inr (.inr (.inr ?_))
    refine (held_update s c _ w (P := False) ?_ held).resolve_left id
    rintro (inSnap | inFilled | ⟨e,inList⟩)
    · exact .inr (.inl inSnap)
    · exact .inr (.inr (.inl inFilled))
    · exact .inr (.inr (.inr ⟨e,cutCall_keeps (inv.calls c) pc e w inList⟩))

theorem cut_preserves (inv : Invariant s) (done : cut s c = some t) : Invariant t := by
  cases pc : (s.calls c).pc with
  | cutting lists =>
    cases lists with
    | nil => simp [cut,pc] at done
    | cons df left =>
      rw [cut_eq inv pc] at done
      cases done
      refine ⟨fun w known => cutState_located inv pc known,?_,?_⟩
      · intro e w waits
        by_cases same : e = df
        · subst same
          simp [cutState] at waits
        · simp only [cutState,update_of_ne same] at waits
          exact inv.waiting e w waits
      · apply calls_update s _ c _ rfl inv.calls
        · exact cutCall_ok inv pc
        · exact fun d other => .critical s _ c d ((inv.calls c).locked _ pc) other rfl (fun _ durable => durable)
            fun _ _ _ carried => carried
  | _ => simp [cut,pc] at done

theorem mem_examineOrder (waitingTxid : Fetcher → Option Nat) (df : Fetcher) (tid : Nat)
    (some : waitingTxid df = some tid) : df ∈ examineOrder waitingTxid := by
  unfold examineOrder
  cases df <;> cases first : waitingTxid .df0 <;> cases second : waitingTxid .df1 <;>
    simp_all <;> split <;> simp

section

variable (inv : Invariant s)
include inv

theorem fill_preserves (mapped : (s.calls c).snap.length ≤ m) (done : fill s c m = some t) : Invariant t := by
  obtain ⟨gathered,⟨⟩⟩ := Option.ite_none_right_eq_some.mp done
  have ok := inv.calls c
  have all : (s.calls c).snap.take m = (s.calls c).snap := take_of_length_le mapped
  rw [all]
  apply setCall_preserves s c _ inv
  · refine ⟨ok.known,ok.taken,?_,by simp,by simp,by simp,by simp⟩
    intro w owed
    have owes := ok.covered w owed
    simp only [Covers,gathered] at owes
    rcases owes with durable | inSnap | ⟨df,inList⟩
    · exact .inl durable
    · exact .inr (.inl inSnap)
    · rcases ok.taken df w inList with durable | ⟨tx,_,_,_,txid⟩
      · exact .inl durable
      · exact .inr (.inr ⟨df,mem_examineOrder _ df _ txid,inList⟩)
  · rintro w (inSnap | inFilled | inList)
    · exact .inr (.inr (.inl inSnap))
    · rw [ok.unfilled (.inr gathered)] at inFilled
      cases inFilled
    · exact .inr (.inr (.inr inList))

/-- A list is dealt with when each of its pages is durable or filled in. -/
theorem examined_preserves (pc : (s.calls c).pc = .examining (df :: left))
    (skipped : Fetcher → Bool) (filled : List PageWrite) (grows : ∀ w ∈ (s.calls c).filled, w ∈ filled)
    (handled : ∀ w ∈ (s.calls c).waitingList df, Durable s w ∨ w ∈ filled) :
    Invariant (s.setCall c { s.calls c with
      pc := .examining left
      waitingList := update (s.calls c).waitingList df []
      skipped := skipped
      filled := filled }) := by
  have ok := inv.calls c
  have kept : ∀ e, ∀ w ∈ (s.calls c).waitingList e,
      w ∈ (s.calls c).waitingList df ∨ w ∈ update (s.calls c).waitingList df [] e := by
    intro e w member
    by_cases same : e = df
    · subst same
      exact .inl member
    · exact .inr (by rwa [update_of_ne same])
  apply setCall_preserves s c _ inv
  · refine ⟨ok.known,?_,?_,by simp,by simp,by simp,by simp⟩
    · intro e w member
      by_cases same : e = df
      · subst same
        simp at member
      · exact ok.taken e w (by simpa [update_of_ne same] using member)
    · intro w owed
      have covered := ok.covered w owed
      simp only [Covers,pc] at covered
      rcases covered with durable | inFilled | ⟨e,inLeft,inList⟩
      · exact .inl durable
      · exact .inr (.inl (grows w inFilled))
      · rcases kept e w inList with mine | later
        · exact (handled w mine).imp id .inl
        · refine .inr (.inr ⟨e,(mem_cons.mp inLeft).resolve_left ?_,later⟩)
          rintro rfl
          simp at later
  · rintro w (inSnap | inFilled | ⟨e,inList⟩)
    · exact .inr (.inl inSnap)
    · exact .inr (.inr (.inl (grows w inFilled)))
    · rcases kept e w inList with mine | later
      · exact (handled w mine).imp id fun inFilled => .inr (.inl inFilled)
      · exact .inr (.inr (.inr ⟨e,later⟩))

/-- A waiting list is dropped only when its transaction has been answered. -/
theorem examine_preserves (done : examine s c = some t) : Invariant t := by
  unfold examine at done
  split at done
  next df left pc =>
    split at done
    next gone =>
      cases done
      refine examined_preserves inv pc _ _ (fun _ member => member) ?_
      intro w inList
      rcases (inv.calls c).taken df w inList with durable | ⟨tx,_,_,now,saved⟩
      · exact .inl durable
      · exact absurd (saved.trans now.symm) gone
    next =>
      cases done
      exact examined_preserves inv pc _ _ (fun _ member => mem_append_left _ member)
        fun _ member => .inr (mem_append_right _ member)
  next => cases done

theorem abort_preserves : Invariant { s with aborted := true } := by
  refine ⟨inv.located,inv.waiting,?_⟩
  intro c
  apply (inv.calls c).mono
  exact ⟨fun _ known => known,fun _ durable => durable,fun _ _ _ carried => .inr carried,
    fun _ _ _ waits => .inr waits,id⟩

theorem finish_preserves (done : finish s c = some t) : Invariant t := by
  obtain ⟨pc,done⟩ := Option.ite_none_right_eq_some.mp done
  simp only at done
  split at done
  next =>
    cases done
    exact abort_preserves inv
  next =>
    cases done
    have ok := inv.calls c
    have durable : ∀ w, Durable s w →
        w ∈ s.staged ++ (s.calls c).filled ∨ w ∈ s.committed := by
      intro w durable
      rcases durable with staged | committed
      · exact .inl (mem_append_left _ staged)
      · exact .inr committed
    refine ⟨?_,inv.waiting,?_⟩
    · intro w known
      rcases inv.located w known with old | dirty | waits | held
      · exact .inl (durable w old)
      · exact .inr (.inl dirty)
      · exact .inr (.inr (.inl waits))
      · have moved := held_update s c { s.calls c with pc := .returned 0, filled := [] } w
          (P := w ∈ (s.calls c).filled) ?_ held
        · rcases moved with filled | held
          · exact .inl (.inl (mem_append_right _ filled))
          · exact .inr (.inr (.inr held))
        · rintro (inSnap | inFilled | inList)
          · exact .inr (.inl inSnap)
          · exact .inl inFilled
          · exact .inr (.inr (.inr inList))
    · have unnoticed : ∀ d, Unnoticed s { s.setCall c { s.calls c with pc := .returned 0, filled := [] } with
          staged := s.staged ++ (s.calls c).filled } d := fun d =>
        ⟨fun _ known => known,durable,fun _ _ _ carried => .inr carried,fun _ _ _ waits => .inr waits,id⟩
      apply calls_update s _ c _ rfl inv.calls
      · refine ⟨ok.known,?_,?_,by simp,by simp,by simp,by simp⟩
        · intro df w member
          rcases ok.taken df w member with old | carried
          · exact .inl (durable w old)
          · exact .inr carried
        · intro w owed
          have owes := ok.covered w owed
          simp only [Covers,pc] at owes
          rcases owes with old | inFilled | ⟨e,inLeft,_⟩
          · exact .inl (durable w old)
          · exact .inl (.inl (mem_append_right _ inFilled))
          · cases inLeft
      · exact fun d _ => unnoticed d

theorem build_preserves (mapped : s.gathered.length ≤ m) (done : build s df tid m = some t) : Invariant t := by
  obtain ⟨ready,done⟩ := Option.ite_none_right_eq_some.mp done
  obtain ⟨free,idle⟩ := ready
  split at done
  next =>
    cases done
    exact abort_preserves inv
  next clear =>
    have empty : s.waiting df = [] := by
      by_contra some
      exact clear (.inl some)
    rw [take_of_length_le mapped] at done
    cases done
    refine ⟨?_,?_,?_⟩
    · intro w known
      rcases inv.located w known with durable | dirty | ⟨e,waits⟩ | held
      · exact .inl durable
      · rcases s.dirty_split dirty with taken | stays
        · exact .inr (.inr (.inl ⟨df,by simpa using taken⟩))
        · exact .inr (.inl stays)
      · have other : e ≠ df := by
          rintro rfl
          rw [empty] at waits
          cases waits
        exact .inr (.inr (.inl ⟨e,by simpa [update_of_ne other] using waits⟩))
      · exact .inr (.inr (.inr held))
    · intro e w waits
      by_cases same : e = df
      · subst same
        simp only [update_self] at waits
        have some : s.gathered ≠ [] := ne_nil_of_mem waits
        exact ⟨⟨tid,s.gathered⟩,by simp,waits,by simp [some],by simp [some]⟩
      · simp only [update_of_ne same] at waits
        obtain ⟨tx,flight,inPages,txid,_⟩ := inv.waiting e w waits
        refine ⟨tx,?_,inPages,?_,?_⟩ <;> simpa [update_of_ne same]
    · intro c
      apply (inv.calls c).mono
      refine ⟨fun _ known => known,fun _ durable => durable,?_,fun held => absurd held (by simp [free]),id⟩
      rintro e other w ⟨tx,flight,inPages,txid,saved⟩
      have apart : e ≠ df := by
        rintro rfl
        rw [idle] at flight
        cases flight
      exact .inr ⟨tx,by simpa [update_of_ne apart],inPages,by simpa [update_of_ne apart],saved⟩

theorem commit_preserves (done : commit s df = some t) : Invariant t := by
  unfold commit at done
  split at done
  next => cases done
  next tx flight =>
    cases done
    have durable : ∀ w, Durable s w → w ∈ s.staged ∨ w ∈ s.committed ++ tx.pages := by
      intro w durable
      rcases durable with staged | committed
      · exact .inl staged
      · exact .inr (mem_append_left _ committed)
    have answered : ∀ tid w, Carried s df tid w → w ∈ s.committed ++ tx.pages := by
      rintro tid w ⟨tx',flight',inPages,_,_⟩
      obtain rfl : tx = tx' := Option.some.inj (flight.symm.trans flight')
      exact mem_append_right _ inPages
    have waits : ∀ e, ∀ w ∈ s.waiting e,
        w ∈ s.committed ++ tx.pages ∨ w ∈ update s.waiting df [] e := by
      intro e w waits
      by_cases same : e = df
      · subst same
        exact .inl (answered _ w (inv.waiting e w waits))
      · exact .inr (by rwa [update_of_ne same])
    refine ⟨?_,?_,?_⟩
    · intro w known
      rcases inv.located w known with old | dirty | ⟨e,waiting⟩ | held
      · exact .inl (durable w old)
      · exact .inr (.inl dirty)
      · rcases waits e w waiting with new | still
        · exact .inl (.inr new)
        · exact .inr (.inr (.inl ⟨e,still⟩))
      · exact .inr (.inr (.inr held))
    · intro e w waiting
      by_cases same : e = df
      · subst same
        simp at waiting
      · simp only [update_of_ne same] at waiting
        obtain ⟨tx',flight',inPages,txid,_⟩ := inv.waiting e w waiting
        refine ⟨tx',?_,inPages,?_,?_⟩ <;> simpa [update_of_ne same]
    · intro c
      apply (inv.calls c).mono
      refine ⟨fun _ known => known,durable,?_,?_,id⟩
      · intro e tid w carried
        by_cases same : e = df
        · subst same
          exact .inl (.inr (answered tid w carried))
        · obtain ⟨tx',flight',inPages,txid,saved⟩ := carried
          exact .inr ⟨tx',by simpa [update_of_ne same],inPages,
            by simpa [update_of_ne same],saved⟩
      · intro _ e w waiting
        rcases waits e w waiting with new | still
        · exact .inl (.inr new)
        · exact .inr still

end

/-- The inode is not deleted, every page gets its block, and when a call gathers, the group bit
of every dirty page it owes is set and no other call has pages of its own that are not durable yet. -/
def Alone (s : State) : Act → Prop
  | .start _ => s.deleted = false
  | .gather c => (∀ w ∈ (s.calls c).owed, w ∈ s.dirty → w.page / nrPagesInPeb ∈ s.groups) ∧
    ∀ d, d ≠ c → ∀ w, (s.calls d).Holds w → Durable s w
  | .fill c mapped => (s.calls c).snap.length ≤ mapped
  | .build _ _ mapped => s.gathered.length ≤ mapped
  | _ => True

theorem step_preserves (s : State) (a : Act) (t : State) (inv : Invariant s) (alone : Alone s a)
    (done : step s a = some t) : Invariant t := by
  unfold step at done
  split at done
  · cases done
  cases a with
  | write => exact write_preserves inv done
  | start => exact start_preserves inv alone done
  | noStageTx => exact noStageTx_preserves inv done
  | stageInodeFails => exact stageInodeFails_preserves inv done
  | gather => exact gather_preserves inv alone.1 alone.2 done
  | cut => exact cut_preserves inv done
  | fill => exact fill_preserves inv alone done
  | examine => exact examine_preserves inv done
  | finish => exact finish_preserves inv done
  | build => exact build_preserves inv alone done
  | commit => exact commit_preserves inv done

/-- When a call returns 0, everything it owed when it started is durable. -/
def FsyncDurable (s : State) : Prop :=
  ∀ c, (s.calls c).pc = .returned 0 → ∀ w ∈ (s.calls c).owed, Durable s w

theorem Invariant.durable (inv : Invariant s) : FsyncDurable s := by
  intro c returned w owed
  rcases (inv.calls c).covered w owed with durable | covers
  · exact durable
  · simp [Covers,returned] at covers

theorem step_write_page : step (init false) (.write 28672 1) =
    some { init false with history := [⟨7,0⟩], dirty := [⟨7,0⟩], groups := [0,0] } := by
  have new : newlyDirty (init false) (28672 / pageSize) ((28672 + 1 + 2 ^ 64 - 1) % 2 ^ 64 / pageSize) = [⟨7,0⟩] := by decide
  have groups : dirtyGroups 1 (28672 / pageSize) ((28672 + 1 + 2 ^ 64 - 1) % 2 ^ 64 / pageSize) = [0,0] := by decide
  simp only [step,write,new,groups]
  rfl

def oneFsync : List Act := [.write 28672 1,.start 0,.gather 0,.cut 0,.cut 0,.fill 0 1,.finish 0]

end Oxbow.Daemon.Fsync
