import Mathlib.Logic.Relation
import Xv6.Kernel.Proc

/-! The process tree: which slots have a parent, that parents are processes that can still
`wait`, that parent pointers go to older processes (smaller pids) and so never round in a
cycle, and that every process descends from `initproc`.

The general part comes first, in `Forest`: pointer structures in which every edge goes to a
node of smaller rank have no cycle, and when every node of a class but one root has an edge
to a node of the same class, each node of the class reaches the root. -/
namespace Forest

variable {α : Type*} {r : α → α → Prop} {rk : α → Nat}

section
variable (hr : ∀ a b, r a b → rk b < rk a)
include hr

theorem rank_lt_of_transGen {a b : α} (h : Relation.TransGen r a b) : rk b < rk a := by
  induction h with
  | single hab => exact hr _ _ hab
  | tail _ hbc ih => exact Nat.lt_trans (hr _ _ hbc) ih

theorem not_transGen_self (a : α) : ¬ Relation.TransGen r a a :=
  fun h => Nat.lt_irrefl _ (rank_lt_of_transGen hr h)

/-- Following edges inside a class closed under them, a descent ends at the root. -/
theorem reaches_root {P : α → Prop} {root : α}
    (hstep : ∀ a, P a → a ≠ root → ∃ b, r a b ∧ P b) :
    ∀ a, P a → Relation.ReflTransGen r a root := by
  have key : ∀ n a, rk a = n → P a → Relation.ReflTransGen r a root := by
    intro n
    induction n using Nat.strongRecOn with
    | ind n ih =>
      intro a hn ha
      by_cases hroot : a = root
      · subst hroot
        exact .refl
      · obtain ⟨b, hab, hb⟩ := hstep a ha hroot
        exact Relation.ReflTransGen.head hab (ih _ (hn ▸ hr a b hab) b rfl hb)
  exact fun a => key _ a rfl

end

end Forest

namespace Xv6

/-- A process that runs, or will once it is scheduled or woken. -/
def ProcState.live : ProcState → Bool
  | .SLEEPING | .RUNNABLE | .RUNNING => true
  | _ => false

/-- Holding a CPU or waiting for one: the states of a process in the middle of `fork`. -/
def ProcState.runs : ProcState → Bool
  | .RUNNABLE | .RUNNING => true
  | _ => false

theorem ProcState.live_of_runs {s : ProcState} (h : s.runs) : s.live := by
  cases s <;> simp_all [ProcState.runs, ProcState.live]

theorem ProcState.ne_unused_of_live {s : ProcState} (h : s.live) : s ≠ .UNUSED := by
  cases s <;> simp_all [ProcState.live]

theorem ProcState.ne_used_of_live {s : ProcState} (h : s.live) : s ≠ .USED := by
  cases s <;> simp_all [ProcState.live]

theorem ProcState.ne_zombie_of_live {s : ProcState} (h : s.live) : s ≠ .ZOMBIE := by
  cases s <;> simp_all [ProcState.live]

/-- `q`'s parent pointer is `pp`. -/
def ParentOf (t : PTable) (q pp : Fin NPROC) : Prop := (t.proc q).parent = some pp

/-- `c` is in the middle of `fork`, with the child `np`. -/
def ForksOf (t : PTable) (c np : Fin NPROC) : Prop :=
  (t.proc c).fork = .allocated np ∨ (t.proc c).fork = .linked np

theorem ForksOf.ne_idle {t : PTable} {c np : Fin NPROC} (h : ForksOf t c np) :
    (t.proc c).fork ≠ .idle := by
  rcases h with h | h <;> rw [h] <;> simp

/-- Slots in different states are different slots. -/
theorem PTable.ne_of_state {t : PTable} {i j : Fin NPROC}
    (h : (t.proc i).state ≠ (t.proc j).state) : i ≠ j :=
  fun e => h (by rw [e])

section Set

variable (t : PTable) (i j : Fin NPROC) (f : Proc → Proc)

@[simp] theorem PTable.set_proc_self : (t.set i f).proc i = f (t.proc i) := by
  simp [PTable.set]

@[simp] theorem PTable.set_proc_of_ne (h : j ≠ i) : (t.set i f).proc j = t.proc j := by
  simp [PTable.set, h]

@[simp] theorem PTable.set_nextpid : (t.set i f).nextpid = t.nextpid := rfl

@[simp] theorem PTable.set_initproc : (t.set i f).initproc = t.initproc := rfl

theorem PTable.set_proc : (t.set i f).proc j = if j = i then f (t.proc i) else t.proc j := by
  by_cases h : j = i
  · subst h
    simp
  · simp [h]

/-- A field that `f` keeps is kept at every slot. -/
theorem PTable.set_field {β : Type} (g : Proc → β) (h : ∀ p, g (f p) = g p) :
    g ((t.set i f).proc j) = g (t.proc j) := by
  rw [PTable.set_proc]
  split_ifs with hj
  · subst hj
    exact h _
  · rfl

end Set

/-- A step that changes only slots `c` and `np` keeps a field at every slot where it keeps it
at those two. -/
theorem PTable.field_eq {β : Type} {t t' : PTable} {c np : Fin NPROC} (g : Proc → β)
    (hpo : ∀ i, i ≠ c → i ≠ np → t'.proc i = t.proc i) {i : Fin NPROC}
    (hc : i = c → g (t'.proc c) = g (t.proc c)) (hn : i = np → g (t'.proc np) = g (t.proc np)) :
    g (t'.proc i) = g (t.proc i) := by
  rcases eq_or_ne i c with rfl | hic
  · exact hc rfl
  rcases eq_or_ne i np with rfl | hin
  · exact hn rfl
  · rw [hpo i hic hin]

/-- What a wakeup may do to a state: nothing, or wake a sleeper. -/
def Woken (s s' : ProcState) : Prop := s' = s ∨ (s = .SLEEPING ∧ s' = .RUNNABLE)

section Woken

variable {s s' s'' : ProcState}

theorem Woken.refl (s : ProcState) : Woken s s := .inl rfl

theorem Woken.trans (h : Woken s s') (h' : Woken s' s'') : Woken s s'' := by
  rcases h with rfl | ⟨rfl, rfl⟩
  · exact h'
  · rcases h' with rfl | ⟨h, -⟩
    · exact .inr ⟨rfl, rfl⟩
    · cases h

theorem Woken.live_eq (h : Woken s s') : s'.live = s.live := by
  rcases h with rfl | ⟨rfl, rfl⟩ <;> rfl

theorem Woken.runs (h : Woken s s') (hs : s.runs) : s'.runs := by
  rcases h with rfl | ⟨rfl, rfl⟩
  · exact hs
  · rfl

/-- A wakeup neither frees nor allocates a slot. -/
theorem Woken.unused_iff (h : Woken s s') : s' = .UNUSED ↔ s = .UNUSED := by
  rcases h with rfl | ⟨rfl, rfl⟩ <;> simp

theorem Woken.used_iff (h : Woken s s') : s' = .USED ↔ s = .USED := by
  rcases h with rfl | ⟨rfl, rfl⟩ <;> simp

end Woken

/-- `t'` differs from `t` at most in woken sleepers and in fields the tree does not read
(`killed`, `chan`, `xstate`), and in parent pointers, which each step states apart. -/
structure Frame (t t' : PTable) : Prop where
  nextpid : t'.nextpid = t.nextpid
  initproc : t'.initproc = t.initproc
  pid : ∀ i, (t'.proc i).pid = (t.proc i).pid
  fork : ∀ i, (t'.proc i).fork = (t.proc i).fork
  state : ∀ i, Woken (t.proc i).state (t'.proc i).state

section Frame

variable {t t' t'' : PTable}

theorem Frame.refl (t : PTable) : Frame t t :=
  ⟨rfl, rfl, fun _ => rfl, fun _ => rfl, fun _ => Woken.refl _⟩

theorem Frame.trans (h : Frame t t') (h' : Frame t' t'') : Frame t t'' :=
  ⟨h'.nextpid.trans h.nextpid, h'.initproc.trans h.initproc,
    fun i => (h'.pid i).trans (h.pid i), fun i => (h'.fork i).trans (h.fork i),
    fun i => (h.state i).trans (h'.state i)⟩

theorem wakeup_frame (t : PTable) (ch : Chan) : Frame t (wakeup t ch) := by
  refine ⟨rfl, rfl, fun i => ?_, fun i => ?_, fun i => ?_⟩ <;> simp only [wakeup] <;>
    split_ifs with h
  all_goals first | rfl | exact Woken.refl _ | exact .inr ⟨h.1, rfl⟩

theorem wakeup_parent (t : PTable) (ch : Chan) (i : Fin NPROC) :
    ((wakeup t ch).proc i).parent = (t.proc i).parent := by
  simp only [wakeup]
  split_ifs <;> rfl

theorem wakeupProc_frame (t : PTable) : ∀ o, Frame t (wakeupProc t o)
  | none => Frame.refl t
  | some i => wakeup_frame t (.proc i)

theorem wakeupProc_parent (t : PTable) (i : Fin NPROC) :
    ∀ o, ((wakeupProc t o).proc i).parent = (t.proc i).parent
  | none => rfl
  | some j => wakeup_parent t (.proc j) i

/-- Changing one slot by an `f` that keeps pid and fork and at most wakes. -/
theorem PTable.set_frame (t : PTable) (i : Fin NPROC) {f : Proc → Proc}
    (hpid : ∀ p, (f p).pid = p.pid) (hfork : ∀ p, (f p).fork = p.fork)
    (hstate : ∀ p, Woken p.state (f p).state) : Frame t (t.set i f) := by
  refine ⟨rfl, rfl, fun j => PTable.set_field t i j f _ hpid,
    fun j => PTable.set_field t i j f _ hfork, fun j => ?_⟩
  rw [PTable.set_proc]
  split_ifs with hj
  · subst hj
    exact hstate _
  · exact Woken.refl _

theorem setParent_frame (t : PTable) (pp : Fin NPROC) (x : Option (Fin NPROC)) :
    Frame t (t.set pp fun q => { q with parent := x }) :=
  t.set_frame pp (fun _ => rfl) (fun _ => rfl) (fun _ => Woken.refl _)

theorem kill_frame (t : PTable) (pid : Int) :
    Frame t (kill t pid).1 ∧ ∀ i, ((kill t pid).1.proc i).parent = (t.proc i).parent := by
  unfold kill
  split
  · rename_i i _
    have hw : ∀ p : Proc, Woken p.state
        (if p.state = .SLEEPING then ProcState.RUNNABLE else p.state) := fun p => by
      split_ifs with hs
      · exact .inr ⟨hs, rfl⟩
      · exact Woken.refl _
    dsimp only
    exact ⟨t.set_frame i (fun _ => rfl) (fun _ => rfl) hw,
      fun j => PTable.set_field t i j _ Proc.parent (fun _ => rfl)⟩
  · exact ⟨Frame.refl t, fun _ => rfl⟩

end Frame

theorem reparentOne_spec (c : Fin NPROC) (t : PTable) (pp : Fin NPROC) :
    Frame t (reparentOne c t pp) ∧ ∀ i, ((reparentOne c t pp).proc i).parent =
      if i = pp ∧ (t.proc i).parent = some c then t.initproc else (t.proc i).parent := by
  unfold reparentOne
  split_ifs with hc
  · refine ⟨(setParent_frame t pp t.initproc).trans (wakeupProc_frame _ _), fun i => ?_⟩
    rw [wakeupProc_parent, PTable.set_proc]
    by_cases hi : i = pp
    · subst hi
      simp [hc]
    · simp [hi]
  · refine ⟨Frame.refl t, fun i => ?_⟩
    by_cases hi : i = pp
    · subst hi
      simp [hc]
    · simp [hi]

/-- `reparent`'s loop over the slots `l`, each visited once: each child of `c` among them
gets `initproc` as parent. -/
theorem reparent_foldl (c : Fin NPROC) : ∀ (l : List (Fin NPROC)) (t : PTable), l.Nodup →
    Frame t (l.foldl (reparentOne c) t) ∧ ∀ i, ((l.foldl (reparentOne c) t).proc i).parent =
      if i ∈ l ∧ (t.proc i).parent = some c then t.initproc else (t.proc i).parent
  | [], t, _ => ⟨Frame.refl t, fun i => by simp⟩
  | pp :: l, t, hnd => by
    obtain ⟨hf₁, hp₁⟩ := reparentOne_spec c t pp
    obtain ⟨hf, hp⟩ := reparent_foldl c l (reparentOne c t pp) (List.nodup_cons.mp hnd).2
    refine ⟨hf₁.trans hf, fun i => ?_⟩
    rw [List.foldl_cons, hp i, hp₁ i, hf₁.initproc]
    by_cases hi : i = pp
    · -- `pp` is visited once: the later steps see the parent it left
      subst hi
      simp [(List.nodup_cons.mp hnd).1]
    · simp [hi]

theorem reparent_spec (t : PTable) (c : Fin NPROC) :
    Frame t (reparent t c) ∧ ∀ i, ((reparent t c).proc i).parent =
      if (t.proc i).parent = some c then t.initproc else (t.proc i).parent := by
  obtain ⟨hf, hp⟩ := reparent_foldl c (List.finRange NPROC) t (List.nodup_finRange NPROC)
  refine ⟨hf, fun i => ?_⟩
  rw [reparent, hp i]
  simp only [List.mem_finRange, true_and]

/-! ### The invariant -/

/-- The process tree's invariant. Every parent pointer goes to a live process with a
smaller pid. A slot that `fork` is setting up is `USED` and belongs to its forking process,
which links it in `fork`'s second section; every other process but `initproc` has a
parent. -/
structure TreeInv (t : PTable) : Prop where
  init : ∃ r, t.initproc = some r ∧ (t.proc r).state.live ∧ (t.proc r).parent = none ∧
    (t.proc r).pid = 1
  unused : ∀ q, (t.proc q).state = .UNUSED → (t.proc q).parent = none ∧ (t.proc q).fork = .idle
  pid_lt : ∀ q, (t.proc q).state ≠ .UNUSED → (t.proc q).pid < t.nextpid
  pid_gt : ∀ q, (t.proc q).state ≠ .UNUSED → t.initproc ≠ some q → 1 < (t.proc q).pid
  has_parent : ∀ q, (t.proc q).state ≠ .UNUSED → (t.proc q).state ≠ .USED →
    t.initproc ≠ some q → ∃ pp, ParentOf t q pp
  parent_live : ∀ q pp, ParentOf t q pp → (t.proc pp).state.live
  parent_pid : ∀ q pp, ParentOf t q pp → (t.proc pp).pid < (t.proc q).pid
  used : ∀ q, (t.proc q).state = .USED → ∃ c, ForksOf t c q
  owner : ∀ c c' np, ForksOf t c np → ForksOf t c' np → c = c'
  allocated : ∀ c np, (t.proc c).fork = .allocated np →
    (t.proc np).state = .USED ∧ (t.proc np).parent = none ∧ (t.proc c).pid < (t.proc np).pid ∧
      (t.proc c).state.runs
  linked : ∀ c np, (t.proc c).fork = .linked np →
    (t.proc np).state = .USED ∧ ParentOf t np c ∧ (t.proc c).state.runs

section TreeInv

variable {t t' : PTable}

/-- A process with a parent pointer holds a slot. -/
theorem TreeInv.ne_unused_of_parent (h : TreeInv t) {q pp : Fin NPROC} (hq : ParentOf t q pp) :
    (t.proc q).state ≠ .UNUSED := fun hu => by
  rw [ParentOf, (h.unused q hu).1] at hq
  cases hq

theorem TreeInv.forks_used (h : TreeInv t) {c np : Fin NPROC} (hf : ForksOf t c np) :
    (t.proc np).state = .USED := by
  rcases hf with hf | hf
  · exact (h.allocated c np hf).1
  · exact (h.linked c np hf).1

/-- A process in the middle of `fork` runs or waits for a CPU. -/
theorem TreeInv.fork_runs (h : TreeInv t) {c : Fin NPROC} (hc : (t.proc c).fork ≠ .idle) :
    (t.proc c).state.runs := by
  cases hf : (t.proc c).fork with
  | idle => exact absurd hf hc
  | allocated np => exact (h.allocated c np hf).2.2.2
  | linked np => exact (h.linked c np hf).2.2

/-- The invariant reads of a state only whether it is `UNUSED`, `USED`, live, and, for a
process in `fork`, whether it runs: a step that keeps these and the pointers, pids and
`fork` fields keeps the invariant. -/
theorem TreeInv.of_shape (h : TreeInv t) (hn : t.nextpid ≤ t'.nextpid)
    (hi : t'.initproc = t.initproc) (hp : ∀ i, (t'.proc i).parent = (t.proc i).parent)
    (hpid : ∀ i, (t.proc i).state ≠ .UNUSED → (t'.proc i).pid = (t.proc i).pid)
    (hfork : ∀ i, (t'.proc i).fork = (t.proc i).fork)
    (hunused : ∀ i, (t'.proc i).state = .UNUSED ↔ (t.proc i).state = .UNUSED)
    (hused : ∀ i, (t'.proc i).state = .USED ↔ (t.proc i).state = .USED)
    (hlive : ∀ i, (t'.proc i).state.live = (t.proc i).state.live)
    (hruns : ∀ i, (t.proc i).fork ≠ .idle → (t.proc i).state.runs → (t'.proc i).state.runs) :
    TreeInv t' := by
  have hpar : ∀ q pp, ParentOf t' q pp ↔ ParentOf t q pp := fun q pp => by
    simp only [ParentOf, hp]
  have hforks : ∀ c np, ForksOf t' c np ↔ ForksOf t c np := fun c np => by
    simp only [ForksOf, hfork]
  obtain ⟨r, hr, hrlive, hnone, hrpid⟩ := h.init
  refine ⟨⟨r, hi ▸ hr, (hlive r).trans hrlive, (hp r).trans hnone,
      (hpid r (ProcState.ne_unused_of_live hrlive)).trans hrpid⟩,
    fun q hq => ?_, fun q hq => ?_, fun q hq hq' => ?_, fun q hq hu hq' => ?_,
    fun q pp hq => ?_, fun q pp hq => ?_, fun q hq => ?_,
    fun c c' np hc hc' => h.owner c c' np ((hforks c np).mp hc) ((hforks c' np).mp hc'),
    fun c np hc => ?_, fun c np hc => ?_⟩
  · rw [hunused] at hq
    rw [hp q, hfork q]
    exact h.unused q hq
  · rw [Ne, hunused] at hq
    rw [hpid q hq]
    exact lt_of_lt_of_le (h.pid_lt q hq) hn
  · rw [Ne, hunused] at hq
    rw [hi] at hq'
    rw [hpid q hq]
    exact h.pid_gt q hq hq'
  · rw [Ne, hunused] at hq
    rw [Ne, hused] at hu
    rw [hi] at hq'
    obtain ⟨pp, hpp⟩ := h.has_parent q hq hu hq'
    exact ⟨pp, (hpar q pp).mpr hpp⟩
  · rw [hlive]
    exact h.parent_live q pp ((hpar q pp).mp hq)
  · have hq' := (hpar q pp).mp hq
    rw [hpid q (h.ne_unused_of_parent hq'),
      hpid pp (ProcState.ne_unused_of_live (h.parent_live q pp hq'))]
    exact h.parent_pid q pp hq'
  · rw [hused] at hq
    obtain ⟨c, hc⟩ := h.used q hq
    exact ⟨c, (hforks c q).mpr hc⟩
  · rw [hfork c] at hc
    obtain ⟨hu, hnone, hlt, hrun⟩ := h.allocated c np hc
    have hcu := ProcState.ne_unused_of_live (ProcState.live_of_runs hrun)
    have hnu : (t.proc np).state ≠ .UNUSED := by rw [hu]; decide
    exact ⟨(hused np).mpr hu, (hp np).trans hnone, by rwa [hpid c hcu, hpid np hnu],
      hruns c (by rw [hc]; simp) hrun⟩
  · rw [hfork c] at hc
    obtain ⟨hu, hnone, hrun⟩ := h.linked c np hc
    exact ⟨(hused np).mpr hu, (hpar np c).mpr hnone, hruns c (by rw [hc]; simp) hrun⟩

/-- Woken sleepers and killed flags change nothing the invariant reads. -/
theorem TreeInv.of_frame (h : TreeInv t) (hf : Frame t t')
    (hp : ∀ i, (t'.proc i).parent = (t.proc i).parent) : TreeInv t' :=
  h.of_shape hf.nextpid.ge hf.initproc hp (fun i _ => hf.pid i) hf.fork
    (fun i => (hf.state i).unused_iff)
    (fun i => (hf.state i).used_iff) (fun i => (hf.state i).live_eq)
    (fun i _ => (hf.state i).runs)

/-- A live process moving to another live state, which still runs if it is in `fork`. -/
theorem TreeInv.setLive (h : TreeInv t) (i : Fin NPROC) {f : Proc → Proc}
    (hparent : ∀ p, (f p).parent = p.parent) (hpid : ∀ p, (f p).pid = p.pid)
    (hfork : ∀ p, (f p).fork = p.fork) (hs : (t.proc i).state.live)
    (hs' : (f (t.proc i)).state.live)
    (hrun : (t.proc i).fork ≠ .idle → (f (t.proc i)).state.runs) : TreeInv (t.set i f) := by
  have hnu : ∀ s : ProcState, s.live → s ≠ .UNUSED ∧ s ≠ .USED := by
    intro s hs
    cases s <;> simp_all [ProcState.live]
  refine h.of_shape (Nat.le_refl _) rfl (fun j => PTable.set_field t i j f _ hparent)
    (fun j _ => PTable.set_field t i j f _ hpid) (fun j => PTable.set_field t i j f _ hfork)
    (fun j => ?_) (fun j => ?_) (fun j => ?_) (fun j hj _ => ?_) <;>
    rw [PTable.set_proc] <;> split_ifs with hji
  all_goals first | rfl | exact Iff.rfl | assumption | skip
  · subst hji
    simp [(hnu _ hs).1, (hnu _ hs').1]
  · subst hji
    simp [(hnu _ hs).2, (hnu _ hs').2]
  · subst hji
    rw [hs, hs']
  · subst hji
    exact hrun hj

theorem allocSlot_unused {t : PTable} {i : Fin NPROC} (h : allocSlot t = some i) :
    (t.proc i).state = .UNUSED := by
  simpa using List.find?_some h

/-- `allocproc` gives the slot the next pid and marks it `USED`. -/
def PTable.take (t : PTable) (np : Fin NPROC) : PTable :=
  { t.set np (fun p => { p with pid := t.nextpid, state := .USED }) with nextpid := t.nextpid + 1 }

/-- A failed `fork` frees the slot it took: only `nextpid` has moved. -/
theorem TreeInv.allocFail (h : TreeInv t) {np : Fin NPROC} (hnp : (t.proc np).state = .UNUSED) :
    TreeInv ((t.take np).set np freeproc) := by
  have hnone := (h.unused np hnp).1
  have hslot : ∀ j, ((t.take np).set np freeproc).proc j =
      if j = np then freeproc (t.proc np) else t.proc j := by
    intro j
    by_cases hj : j = np
    · subst hj
      simp [PTable.take, freeproc]
    · simp [PTable.take, hj]
  have hkeep : ∀ {β : Type} (g : Proc → β), g (freeproc (t.proc np)) = g (t.proc np) →
      ∀ j, g (((t.take np).set np freeproc).proc j) = g (t.proc j) := by
    intro β g hg j
    rw [hslot]
    split_ifs with hj
    · subst hj
      exact hg
    · rfl
  have hstate := hkeep Proc.state (by rw [hnp]; rfl)
  refine h.of_shape (Nat.le_succ _) rfl (hkeep Proc.parent (by simp [freeproc, hnone]))
    (fun j hj => ?_) (hkeep Proc.fork rfl) (fun j => by rw [hstate]) (fun j => by rw [hstate])
    (fun j => by rw [hstate]) (fun j _ => by rw [hstate]; exact id)
  rw [hslot, if_neg (fun (e : j = np) => hj (e ▸ hnp))]

/-- The first section of a `fork` that goes on: the child slot is `USED`, unlinked, and
owned by the forking process. -/
theorem TreeInv.allocOk (h : TreeInv t) {c np : Fin NPROC} (hnp : (t.proc np).state = .UNUSED)
    (hc : (t.proc c).state = .RUNNING) (hidle : (t.proc c).fork = .idle) :
    TreeInv ((t.take np).set c fun p => { p with fork := .allocated np }) := by
  set t' := (t.take np).set c fun p => { p with fork := .allocated np } with ht'
  have hcn : c ≠ np := PTable.ne_of_state (by rw [hc, hnp]; decide)
  have hnone := (h.unused np hnp).1
  have hpc : t'.proc c = { t.proc c with fork := .allocated np } := by
    simp [ht', PTable.take, hcn]
  have hpn : t'.proc np = { t.proc np with pid := t.nextpid, state := .USED } := by
    simp [ht', PTable.take, Ne.symm hcn]
  have hpo : ∀ i, i ≠ c → i ≠ np → t'.proc i = t.proc i := by
    intro i hic hin
    simp [ht', PTable.take, hic, hin]
  have hparent : ∀ i, (t'.proc i).parent = (t.proc i).parent := fun i =>
    PTable.field_eq Proc.parent hpo (fun _ => by rw [hpc]) (fun _ => by rw [hpn])
  have hkeep : ∀ i, i ≠ np → (t'.proc i).state = (t.proc i).state ∧ (t'.proc i).pid = (t.proc i).pid :=
    fun i hin => ⟨PTable.field_eq Proc.state hpo (fun _ => by rw [hpc]) (absurd · hin),
      PTable.field_eq Proc.pid hpo (fun _ => by rw [hpc]) (absurd · hin)⟩
  have hfork : ∀ i, i ≠ c → (t'.proc i).fork = (t.proc i).fork := fun i hic =>
    PTable.field_eq Proc.fork hpo (absurd · hic) (fun _ => by rw [hpn])
  have hlive_ne : ∀ i, (t.proc i).state.live → i ≠ np := fun i hi =>
    PTable.ne_of_state (by rw [hnp]; exact ProcState.ne_unused_of_live hi)
  have hused_ne : ∀ i, (t.proc i).state = .USED → i ≠ np := fun i hi =>
    PTable.ne_of_state (by rw [hi, hnp]; decide)
  have hpar : ∀ q pp, ParentOf t' q pp → ParentOf t q pp := fun q pp hq => by
    rwa [ParentOf, ← hparent]
  have hforks : ∀ a n, ForksOf t' a n → (a = c ∧ n = np) ∨ (a ≠ c ∧ ForksOf t a n) := by
    intro a n ha
    rcases eq_or_ne a c with rfl | hac
    · rcases ha with ha | ha <;> rw [hpc] at ha <;> cases ha
      exact .inl ⟨rfl, rfl⟩
    · exact .inr ⟨hac, by rwa [ForksOf, ← hfork a hac]⟩
  obtain ⟨r, hr, hrl, hrn, hrp⟩ := h.init
  have hone : 1 < t.nextpid := hrp ▸ h.pid_lt r (ProcState.ne_unused_of_live hrl)
  refine ⟨⟨r, hr, (hkeep r (hlive_ne r hrl)).1 ▸ hrl, (hparent r).trans hrn,
      (hkeep r (hlive_ne r hrl)).2.trans hrp⟩, ?unused, ?pid_lt, ?pid_gt, ?has_parent,
    ?parent_live, ?parent_pid, ?used, ?owner, ?allocated, ?linked⟩
  case unused =>
    intro q hq
    have hqn : q ≠ np := by
      rintro rfl
      rw [hpn] at hq
      cases hq
    rw [(hkeep q hqn).1] at hq
    have hqc : q ≠ c := PTable.ne_of_state (by rw [hq, hc]; decide)
    rw [hparent, hfork q hqc]
    exact h.unused q hq
  case pid_lt =>
    intro q hq
    show _ < t.nextpid + 1
    rcases eq_or_ne q np with rfl | hqn
    · rw [hpn]
      exact Nat.lt_succ_self _
    · rw [(hkeep q hqn).1] at hq
      rw [(hkeep q hqn).2]
      exact Nat.lt_succ_of_lt (h.pid_lt q hq)
  case pid_gt =>
    intro q hq hi
    rcases eq_or_ne q np with rfl | hqn
    · rw [hpn]
      exact hone
    · rw [(hkeep q hqn).1] at hq
      rw [(hkeep q hqn).2]
      exact h.pid_gt q hq hi
  case has_parent =>
    intro q hq hu hi
    have hqn : q ≠ np := by
      rintro rfl
      rw [hpn] at hu
      exact hu rfl
    rw [(hkeep q hqn).1] at hq hu
    obtain ⟨pp, hpp⟩ := h.has_parent q hq hu hi
    exact ⟨pp, by rwa [ParentOf, hparent]⟩
  case parent_live =>
    intro q pp hq
    have hl := h.parent_live q pp (hpar q pp hq)
    rwa [(hkeep pp (hlive_ne pp hl)).1]
  case parent_pid =>
    intro q pp hq
    have hq' := hpar q pp hq
    have hqn : q ≠ np := by
      rintro rfl
      rw [ParentOf, hnone] at hq'
      cases hq'
    rw [(hkeep q hqn).2, (hkeep pp (hlive_ne pp (h.parent_live q pp hq'))).2]
    exact h.parent_pid q pp hq'
  case used =>
    intro q hq
    rcases eq_or_ne q np with rfl | hqn
    · exact ⟨c, .inl (by rw [hpc])⟩
    · rw [(hkeep q hqn).1] at hq
      obtain ⟨a, ha⟩ := h.used q hq
      have hac : a ≠ c := fun e => ha.ne_idle (e ▸ hidle)
      exact ⟨a, by rwa [ForksOf, hfork a hac]⟩
  case owner =>
    intro a b n ha hb
    rcases hforks a n ha with ⟨rfl, rfl⟩ | ⟨-, ha'⟩ <;>
      rcases hforks b n hb with ⟨rfl, hn⟩ | ⟨-, hb'⟩
    · rfl
    · exact absurd (h.forks_used hb') (by rw [hnp]; decide)
    · exact absurd (h.forks_used ha') (by rw [hn, hnp]; decide)
    · exact h.owner a b n ha' hb'
  case allocated =>
    intro a n ha
    rcases eq_or_ne a c with rfl | hac
    · rw [hpc] at ha
      cases ha
      rw [hpn, hpc]
      exact ⟨rfl, hnone, h.pid_lt a (by rw [hc]; decide), by rw [hc]; rfl⟩
    · rw [hfork a hac] at ha
      obtain ⟨hu, hn, hlt, hrun⟩ := h.allocated a n ha
      have han := hlive_ne a (ProcState.live_of_runs hrun)
      rw [(hkeep n (hused_ne n hu)).1, hparent, (hkeep a han).2, (hkeep n (hused_ne n hu)).2,
        (hkeep a han).1]
      exact ⟨hu, hn, hlt, hrun⟩
  case linked =>
    intro a n ha
    rcases eq_or_ne a c with rfl | hac
    · rw [hpc] at ha
      cases ha
    · rw [hfork a hac] at ha
      obtain ⟨hu, hn, hrun⟩ := h.linked a n ha
      rw [(hkeep n (hused_ne n hu)).1, ParentOf, hparent,
        (hkeep a (hlive_ne a (ProcState.live_of_runs hrun))).1]
      exact ⟨hu, hn, hrun⟩

theorem TreeInv.forkAlloc (h : TreeInv t) {c : Fin NPROC} (hc : (t.proc c).state = .RUNNING)
    (hidle : (t.proc c).fork = .idle) (allocOk copyOk : Bool) :
    TreeInv (Xv6.forkAlloc t c allocOk copyOk).1 := by
  unfold Xv6.forkAlloc allocproc
  cases hs : allocSlot t with
  | none => exact h
  | some np =>
    have hnp := allocSlot_unused hs
    cases allocOk <;> cases copyOk
    all_goals first
      | exact h.allocFail hnp
      | exact h.allocOk hnp hc hidle

/-- `fork`'s second section sets the child's parent pointer. -/
theorem TreeInv.forkLink (h : TreeInv t) {c np : Fin NPROC} (hc : (t.proc c).state = .RUNNING)
    (hf : (t.proc c).fork = .allocated np) : TreeInv (Xv6.forkLink t c np) := by
  obtain ⟨hu, hnone, hlt, -⟩ := h.allocated c np hf
  have hcn : c ≠ np := PTable.ne_of_state (by rw [hc, hu]; decide)
  set t' := Xv6.forkLink t c np with ht'
  have hpc : t'.proc c = { t.proc c with fork := .linked np } := by
    simp [ht', Xv6.forkLink, hcn]
  have hpn : t'.proc np = { t.proc np with parent := some c } := by
    simp [ht', Xv6.forkLink, Ne.symm hcn]
  have hpo : ∀ i, i ≠ c → i ≠ np → t'.proc i = t.proc i := by
    intro i hic hin
    simp [ht', Xv6.forkLink, hic, hin]
  have hkeep : ∀ i, (t'.proc i).state = (t.proc i).state ∧ (t'.proc i).pid = (t.proc i).pid :=
    fun _ => ⟨PTable.field_eq Proc.state hpo (fun _ => by rw [hpc]) (fun _ => by rw [hpn]),
      PTable.field_eq Proc.pid hpo (fun _ => by rw [hpc]) (fun _ => by rw [hpn])⟩
  have hparent : ∀ i, i ≠ np → (t'.proc i).parent = (t.proc i).parent := fun i hin =>
    PTable.field_eq Proc.parent hpo (fun _ => by rw [hpc]) (absurd · hin)
  have hfork : ∀ i, i ≠ c → (t'.proc i).fork = (t.proc i).fork := fun i hic =>
    PTable.field_eq Proc.fork hpo (absurd · hic) (fun _ => by rw [hpn])
  have hforks : ∀ a n, ForksOf t' a n ↔ ForksOf t a n := by
    intro a n
    rcases eq_or_ne a c with rfl | hac
    · simp [ForksOf, hpc, hf]
    · rw [ForksOf, ForksOf, hfork a hac]
  have hn_ne : ∀ a n, ForksOf t a n → a ≠ c → n ≠ np := by
    rintro a n ha hac rfl
    exact hac (h.owner a c n ha (.inl hf))
  obtain ⟨r, hr, hrl, hrn, hrp⟩ := h.init
  have hrn' : r ≠ np := PTable.ne_of_state (by rw [hu]; exact ProcState.ne_used_of_live hrl)
  refine ⟨⟨r, hr, (hkeep r).1 ▸ hrl, (hparent r hrn').trans hrn, (hkeep r).2.trans hrp⟩,
    ?unused, ?pid_lt, ?pid_gt, ?has_parent, ?parent_live, ?parent_pid, ?used, ?owner,
    ?allocated, ?linked⟩
  case unused =>
    intro q hq
    rw [(hkeep q).1] at hq
    have hqn : q ≠ np := PTable.ne_of_state (by rw [hq, hu]; decide)
    have hqc : q ≠ c := PTable.ne_of_state (by rw [hq, hc]; decide)
    rw [hparent q hqn, hfork q hqc]
    exact h.unused q hq
  case pid_lt =>
    intro q hq
    rw [(hkeep q).1] at hq
    rw [(hkeep q).2]
    exact h.pid_lt q hq
  case pid_gt =>
    intro q hq hi
    rw [(hkeep q).1] at hq
    rw [(hkeep q).2]
    exact h.pid_gt q hq hi
  case has_parent =>
    intro q hq hused hi
    rw [(hkeep q).1] at hq hused
    have hqn : q ≠ np := PTable.ne_of_state (by rw [hu]; exact hused)
    obtain ⟨pp, hpp⟩ := h.has_parent q hq hused hi
    exact ⟨pp, by rwa [ParentOf, hparent q hqn]⟩
  case parent_live =>
    intro q pp hq
    rw [(hkeep pp).1]
    rcases eq_or_ne q np with rfl | hqn
    · rw [ParentOf, hpn] at hq
      cases hq
      rw [hc]
      rfl
    · rw [ParentOf, hparent q hqn] at hq
      exact h.parent_live q pp hq
  case parent_pid =>
    intro q pp hq
    rw [(hkeep pp).2, (hkeep q).2]
    rcases eq_or_ne q np with rfl | hqn
    · rw [ParentOf, hpn] at hq
      cases hq
      exact hlt
    · rw [ParentOf, hparent q hqn] at hq
      exact h.parent_pid q pp hq
  case used =>
    intro q hq
    rw [(hkeep q).1] at hq
    obtain ⟨a, ha⟩ := h.used q hq
    exact ⟨a, (hforks a q).mpr ha⟩
  case owner =>
    intro a b n ha hb
    exact h.owner a b n ((hforks a n).mp ha) ((hforks b n).mp hb)
  case allocated =>
    intro a n ha
    have hac : a ≠ c := by
      rintro rfl
      rw [hpc] at ha
      cases ha
    rw [hfork a hac] at ha
    have hnn := hn_ne a n (.inl ha) hac
    rw [(hkeep n).1, hparent n hnn, (hkeep a).2, (hkeep n).2, (hkeep a).1]
    exact h.allocated a n ha
  case linked =>
    intro a n ha
    rw [ParentOf, (hkeep n).1, (hkeep a).1]
    rcases eq_or_ne a c with rfl | hac
    · rw [hpc] at ha
      cases ha
      rw [hpn, hc]
      exact ⟨hu, rfl, rfl⟩
    · rw [hfork a hac] at ha
      rw [hparent n (hn_ne a n (.inr ha) hac)]
      exact h.linked a n ha

/-- `fork`'s last section makes the child `RUNNABLE`: it joins the processes with a parent. -/
theorem TreeInv.forkRun (h : TreeInv t) {c np : Fin NPROC} (hc : (t.proc c).state = .RUNNING)
    (hf : (t.proc c).fork = .linked np) : TreeInv (Xv6.forkRun t c np).1 := by
  obtain ⟨hu, hpar_np, -⟩ := h.linked c np hf
  have hcn : c ≠ np := PTable.ne_of_state (by rw [hc, hu]; decide)
  set t' := (Xv6.forkRun t c np).1 with ht'
  have hpc : t'.proc c = { t.proc c with fork := .idle } := by
    simp [ht', Xv6.forkRun, hcn]
  have hpn : t'.proc np = { t.proc np with state := .RUNNABLE } := by
    simp [ht', Xv6.forkRun, Ne.symm hcn]
  have hpo : ∀ i, i ≠ c → i ≠ np → t'.proc i = t.proc i := by
    intro i hic hin
    simp [ht', Xv6.forkRun, hic, hin]
  have hkeep : ∀ i, (t'.proc i).parent = (t.proc i).parent ∧ (t'.proc i).pid = (t.proc i).pid :=
    fun _ => ⟨PTable.field_eq Proc.parent hpo (fun _ => by rw [hpc]) (fun _ => by rw [hpn]),
      PTable.field_eq Proc.pid hpo (fun _ => by rw [hpc]) (fun _ => by rw [hpn])⟩
  have hstate : ∀ i, i ≠ np → (t'.proc i).state = (t.proc i).state := fun i hin =>
    PTable.field_eq Proc.state hpo (fun _ => by rw [hpc]) (absurd · hin)
  have hfork : ∀ i, i ≠ c → (t'.proc i).fork = (t.proc i).fork := fun i hic =>
    PTable.field_eq Proc.fork hpo (absurd · hic) (fun _ => by rw [hpn])
  have hpar : ∀ q pp, ParentOf t' q pp ↔ ParentOf t q pp := fun q pp => by
    rw [ParentOf, ParentOf, (hkeep q).1]
  have hforks : ∀ a n, ForksOf t' a n → a ≠ c ∧ ForksOf t a n := by
    intro a n ha
    have hac : a ≠ c := by
      rintro rfl
      exact ha.ne_idle (by rw [hpc])
    exact ⟨hac, by rwa [ForksOf, ← hfork a hac]⟩
  have hn_ne : ∀ a n, ForksOf t a n → a ≠ c → n ≠ np := by
    rintro a n ha hac rfl
    exact hac (h.owner a c n ha (.inr hf))
  have hlive_ne : ∀ i, (t.proc i).state.live → i ≠ np := fun i hi =>
    PTable.ne_of_state (by rw [hu]; exact ProcState.ne_used_of_live hi)
  have hnu : (t.proc np).state ≠ .UNUSED := by rw [hu]; decide
  obtain ⟨r, hr, hrl, hrn, hrp⟩ := h.init
  refine ⟨⟨r, hr, (hstate r (hlive_ne r hrl)).symm ▸ hrl, (hkeep r).1.trans hrn,
      (hkeep r).2.trans hrp⟩, ?unused, ?pid_lt, ?pid_gt, ?has_parent, ?parent_live,
    ?parent_pid, ?used, ?owner, ?allocated, ?linked⟩
  case unused =>
    intro q hq
    have hqn : q ≠ np := by
      rintro rfl
      rw [hpn] at hq
      cases hq
    rw [hstate q hqn] at hq
    have hqc : q ≠ c := PTable.ne_of_state (by rw [hq, hc]; decide)
    rw [(hkeep q).1, hfork q hqc]
    exact h.unused q hq
  case pid_lt =>
    intro q hq
    rw [(hkeep q).2]
    rcases eq_or_ne q np with rfl | hqn
    · exact h.pid_lt q hnu
    · rw [hstate q hqn] at hq
      exact h.pid_lt q hq
  case pid_gt =>
    intro q hq hi
    rw [(hkeep q).2]
    rcases eq_or_ne q np with rfl | hqn
    · exact h.pid_gt q hnu hi
    · rw [hstate q hqn] at hq
      exact h.pid_gt q hq hi
  case has_parent =>
    intro q hq hused hi
    rcases eq_or_ne q np with rfl | hqn
    · exact ⟨c, (hpar q c).mpr hpar_np⟩
    · rw [hstate q hqn] at hq hused
      obtain ⟨pp, hpp⟩ := h.has_parent q hq hused hi
      exact ⟨pp, (hpar q pp).mpr hpp⟩
  case parent_live =>
    intro q pp hq
    have hl := h.parent_live q pp ((hpar q pp).mp hq)
    rwa [hstate pp (hlive_ne pp hl)]
  case parent_pid =>
    intro q pp hq
    rw [(hkeep pp).2, (hkeep q).2]
    exact h.parent_pid q pp ((hpar q pp).mp hq)
  case used =>
    intro q hq
    have hqn : q ≠ np := by
      rintro rfl
      rw [hpn] at hq
      cases hq
    rw [hstate q hqn] at hq
    obtain ⟨a, ha⟩ := h.used q hq
    have hac : a ≠ c := by
      rintro rfl
      rcases ha with ha | ha <;> rw [hf] at ha <;> cases ha
      exact hqn rfl
    exact ⟨a, by rwa [ForksOf, hfork a hac]⟩
  case owner =>
    intro a b n ha hb
    exact h.owner a b n (hforks a n ha).2 (hforks b n hb).2
  case allocated =>
    intro a n ha
    obtain ⟨hac, ha'⟩ := hforks a n (.inl ha)
    rw [hfork a hac] at ha
    obtain ⟨hnu', hn, hlt, hrun⟩ := h.allocated a n ha
    have hnn := hn_ne a n ha' hac
    rw [hstate n hnn, (hkeep n).1, (hkeep a).2, (hkeep n).2,
      hstate a (hlive_ne a (ProcState.live_of_runs hrun))]
    exact ⟨hnu', hn, hlt, hrun⟩
  case linked =>
    intro a n ha
    obtain ⟨hac, ha'⟩ := hforks a n (.inr ha)
    rw [hfork a hac] at ha
    obtain ⟨hnu', hn, hrun⟩ := h.linked a n ha
    rw [hstate n (hn_ne a n ha' hac), hpar, hstate a (hlive_ne a (ProcState.live_of_runs hrun))]
    exact ⟨hnu', hn, hrun⟩

/-- `exit`: the children of `c` go to `initproc`, the parent of `c` is woken, and `c` becomes
a zombie, to which no pointer is left. -/
theorem TreeInv.exit (h : TreeInv t) {c : Fin NPROC} {status : Int}
    (hc : (t.proc c).state = .RUNNING) (hidle : (t.proc c).fork = .idle)
    (hex : Xv6.exit t c status = .ok t') : TreeInv t' := by
  unfold Xv6.exit at hex
  split_ifs at hex with hic
  cases hex
  obtain ⟨hf₁, hp₁⟩ := reparent_spec t c
  set t₂ := wakeupProc (reparent t c) ((reparent t c).proc c).parent
  have hf₂ : Frame t t₂ := hf₁.trans (wakeupProc_frame _ _)
  set g : Proc → Proc := fun p => { p with xstate := status, state := .ZOMBIE }
  have hparent : ∀ i, ((t₂.set c g).proc i).parent =
      if (t.proc i).parent = some c then t.initproc else (t.proc i).parent := fun i => by
    rw [PTable.set_field t₂ c i g Proc.parent (fun _ => rfl), wakeupProc_parent, hp₁]
  have hpid : ∀ i, ((t₂.set c g).proc i).pid = (t.proc i).pid := fun i => by
    rw [PTable.set_field t₂ c i g Proc.pid (fun _ => rfl), hf₂.pid]
  have hfork : ∀ i, ((t₂.set c g).proc i).fork = (t.proc i).fork := fun i => by
    rw [PTable.set_field t₂ c i g Proc.fork (fun _ => rfl), hf₂.fork]
  have hstate : ∀ i, i ≠ c → Woken (t.proc i).state ((t₂.set c g).proc i).state := fun i hi => by
    rw [PTable.set_proc_of_ne _ _ _ _ hi]
    exact hf₂.state i
  have hzc : ((t₂.set c g).proc c).state = .ZOMBIE := by
    rw [PTable.set_proc_self]
  have hinit : (t₂.set c g).initproc = t.initproc := (PTable.set_initproc _ _ _).trans hf₂.initproc
  have hnext : (t₂.set c g).nextpid = t.nextpid := (PTable.set_nextpid _ _ _).trans hf₂.nextpid
  -- from here on only these facts about the step are used
  clear_value t₂ g
  obtain ⟨r, hr, hrl, hrn, hrp⟩ := h.init
  have hrc : r ≠ c := fun e => hic (e ▸ hr)
  have hforks : ∀ a n, ForksOf (t₂.set c g) a n ↔ ForksOf t a n := fun a n => by
    rw [ForksOf, ForksOf, hfork]
  have hnu : ∀ q, ((t₂.set c g).proc q).state ≠ .UNUSED → (t.proc q).state ≠ .UNUSED := by
    intro q hq
    rcases eq_or_ne q c with rfl | hqc
    · rw [hc]
      decide
    · rwa [Ne, ← (hstate q hqc).unused_iff]
  have hnused : ∀ q, ((t₂.set c g).proc q).state ≠ .USED → (t.proc q).state ≠ .USED := by
    intro q hq
    rcases eq_or_ne q c with rfl | hqc
    · rw [hc]
      decide
    · rwa [Ne, ← (hstate q hqc).used_iff]
  have hnew : ∀ q pp, ParentOf (t₂.set c g) q pp →
      (pp = r ∧ ParentOf t q c) ∨ (pp ≠ c ∧ ParentOf t q pp) := by
    intro q pp hq
    rw [ParentOf, hparent] at hq
    split_ifs at hq with hqc
    · rw [hr] at hq
      cases hq
      exact .inl ⟨rfl, hqc⟩
    · refine .inr ⟨?_, hq⟩
      rintro rfl
      exact hqc hq
  have hlive : ∀ i, i ≠ c → (t.proc i).state.live → ((t₂.set c g).proc i).state.live :=
    fun i hi hl => (hstate i hi).live_eq.trans hl
  refine ⟨⟨r, hinit.trans hr, hlive r hrc hrl, by rw [hparent, hrn]; simp, (hpid r).trans hrp⟩,
    ?unused, ?pid_lt, ?pid_gt, ?has_parent, ?parent_live, ?parent_pid, ?used, ?owner,
    ?allocated, ?linked⟩
  case unused =>
    intro q hq
    have hqc : q ≠ c := by
      rintro rfl
      rw [hzc] at hq
      cases hq
    have hq' := (hstate q hqc).unused_iff.mp hq
    obtain ⟨hn, hi⟩ := h.unused q hq'
    rw [hparent, hn, hfork]
    exact ⟨by simp, hi⟩
  case pid_lt =>
    intro q hq
    rw [hpid, hnext]
    exact h.pid_lt q (hnu q hq)
  case pid_gt =>
    intro q hq hi
    rw [hpid]
    exact h.pid_gt q (hnu q hq) (hinit ▸ hi)
  case has_parent =>
    intro q hq hu hi
    obtain ⟨pp, hpp⟩ := h.has_parent q (hnu q hq) (hnused q hu) (hinit ▸ hi)
    by_cases hpc : pp = c
    · exact ⟨r, by rw [ParentOf, hparent, hpp, if_pos (by rw [hpc]), hr]⟩
    · exact ⟨pp, by rw [ParentOf, hparent, hpp, if_neg (by simpa using hpc)]⟩
  case parent_live =>
    intro q pp hq
    rcases hnew q pp hq with ⟨rfl, -⟩ | ⟨hpc, hq'⟩
    · exact hlive pp hrc hrl
    · exact hlive pp hpc (h.parent_live q pp hq')
  case parent_pid =>
    intro q pp hq
    rw [hpid, hpid]
    rcases hnew q pp hq with ⟨rfl, hq'⟩ | ⟨-, hq'⟩
    · -- a former child of `c` is neither free nor `initproc`, whose pid is 1
      have hqr : t.initproc ≠ some q := by
        rw [hr]
        rintro ⟨⟩
        rw [ParentOf, hrn] at hq'
        cases hq'
      rw [hrp]
      exact h.pid_gt q (h.ne_unused_of_parent hq') hqr
    · exact h.parent_pid q pp hq'
  case used =>
    intro q hq
    obtain ⟨a, ha⟩ := h.used q (by
      by_contra hne
      rcases eq_or_ne q c with rfl | hqc
      · rw [hzc] at hq
        cases hq
      · exact hne ((hstate q hqc).used_iff.mp hq))
    exact ⟨a, (hforks a q).mpr ha⟩
  case owner =>
    intro a b n ha hb
    exact h.owner a b n ((hforks a n).mp ha) ((hforks b n).mp hb)
  case allocated =>
    intro a n ha
    rw [hfork] at ha
    have hac : a ≠ c := fun e => by rw [e, hidle] at ha; cases ha
    obtain ⟨hu, hn, hlt, hrun⟩ := h.allocated a n ha
    have hnc : n ≠ c := PTable.ne_of_state (by rw [hu, hc]; decide)
    rw [hparent, hn, hpid, hpid, if_neg (by simp)]
    exact ⟨(hstate n hnc).used_iff.mpr hu, rfl, hlt, (hstate a hac).runs hrun⟩
  case linked =>
    intro a n ha
    rw [hfork] at ha
    have hac : a ≠ c := fun e => by rw [e, hidle] at ha; cases ha
    obtain ⟨hu, hn, hrun⟩ := h.linked a n ha
    have hnc : n ≠ c := PTable.ne_of_state (by rw [hu, hc]; decide)
    refine ⟨(hstate n hnc).used_iff.mpr hu, ?_, (hstate a hac).runs hrun⟩
    rw [ParentOf, hparent, hn, if_neg (by simpa using hac)]

/-- `wait` frees a zombie: nothing points to it, and it is in no `fork`. -/
theorem TreeInv.freeZombie (h : TreeInv t) {pp : Fin NPROC} (hz : (t.proc pp).state = .ZOMBIE) :
    TreeInv (t.set pp freeproc) := by
  have hidle : (t.proc pp).fork = .idle := by
    by_contra hne
    have hrun := h.fork_runs hne
    rw [hz] at hrun
    cases hrun
  have hpo : ∀ i, i ≠ pp → (t.set pp freeproc).proc i = t.proc i := fun i hi =>
    PTable.set_proc_of_ne _ _ _ _ hi
  have hpp : (t.set pp freeproc).proc pp = freeproc (t.proc pp) := PTable.set_proc_self _ _ _
  have hfork : ∀ i, ((t.set pp freeproc).proc i).fork = (t.proc i).fork := fun i =>
    PTable.set_field t pp i freeproc Proc.fork (fun _ => rfl)
  have hforks : ∀ a n, ForksOf (t.set pp freeproc) a n ↔ ForksOf t a n := fun a n => by
    rw [ForksOf, ForksOf, hfork]
  have hlive_ne : ∀ i, (t.proc i).state.live → i ≠ pp := fun i hi =>
    PTable.ne_of_state (by rw [hz]; exact ProcState.ne_zombie_of_live hi)
  have hused_ne : ∀ i, (t.proc i).state = .USED → i ≠ pp := fun i hi =>
    PTable.ne_of_state (by rw [hi, hz]; decide)
  have hfree_ne : ∀ q, ((t.set pp freeproc).proc q).state ≠ .UNUSED → q ≠ pp := by
    rintro q hq rfl
    exact hq (by rw [hpp]; rfl)
  have hpar : ∀ q p, ParentOf (t.set pp freeproc) q p → q ≠ pp ∧ ParentOf t q p := by
    intro q p hq
    have hqp : q ≠ pp := by
      rintro rfl
      rw [ParentOf, hpp] at hq
      cases hq
    rw [ParentOf, hpo q hqp] at hq
    exact ⟨hqp, hq⟩
  obtain ⟨r, hr, hrl, hrn, hrp⟩ := h.init
  have hrp' := hlive_ne r hrl
  rw [← hpo r hrp'] at hrl hrn hrp
  refine ⟨⟨r, hr, hrl, hrn, hrp⟩, ?unused, ?pid_lt, ?pid_gt, ?has_parent, ?parent_live,
    ?parent_pid, ?used, ?owner, ?allocated, ?linked⟩
  case unused =>
    intro q hq
    rcases eq_or_ne q pp with rfl | hqp
    · rw [hpp]
      exact ⟨rfl, hidle⟩
    · rw [hpo q hqp] at hq ⊢
      exact h.unused q hq
  case pid_lt =>
    intro q hq
    have hqp := hfree_ne q hq
    rw [hpo q hqp] at hq ⊢
    exact h.pid_lt q hq
  case pid_gt =>
    intro q hq hi
    have hqp := hfree_ne q hq
    rw [hpo q hqp] at hq ⊢
    exact h.pid_gt q hq hi
  case has_parent =>
    intro q hq hu hi
    have hqp := hfree_ne q hq
    rw [hpo q hqp] at hq hu
    obtain ⟨p, hp⟩ := h.has_parent q hq hu hi
    exact ⟨p, by rwa [ParentOf, hpo q hqp]⟩
  case parent_live =>
    intro q p hq
    have hl := h.parent_live q p (hpar q p hq).2
    rwa [hpo p (hlive_ne p hl)]
  case parent_pid =>
    intro q p hq
    obtain ⟨hqp, hq'⟩ := hpar q p hq
    rw [hpo q hqp, hpo p (hlive_ne p (h.parent_live q p hq'))]
    exact h.parent_pid q p hq'
  case used =>
    intro q hq
    have hqp : q ≠ pp := hfree_ne q (by rw [hq]; decide)
    rw [hpo q hqp] at hq
    obtain ⟨a, ha⟩ := h.used q hq
    exact ⟨a, (hforks a q).mpr ha⟩
  case owner =>
    intro a b n ha hb
    exact h.owner a b n ((hforks a n).mp ha) ((hforks b n).mp hb)
  case allocated =>
    intro a n ha
    rw [hfork] at ha
    have hap : a ≠ pp := fun e => by rw [e, hidle] at ha; cases ha
    have hres := h.allocated a n ha
    rw [hpo a hap, hpo n (hused_ne n hres.1)]
    exact hres
  case linked =>
    intro a n ha
    rw [hfork] at ha
    have hap : a ≠ pp := fun e => by rw [e, hidle] at ha; cases ha
    have hres := h.linked a n ha
    rw [ParentOf, hpo a hap, hpo n (hused_ne n hres.1)]
    exact hres

theorem waitScan_some {t : PTable} {c pp : Fin NPROC} (h : (waitScan t c).1 = some pp) :
    ParentOf t pp c ∧ (t.proc pp).state = .ZOMBIE := by
  simpa [ParentOf] using List.find?_some h

/-- One pass of `wait` frees a zombie child, or leaves the table, or puts `c` to sleep. -/
theorem TreeInv.wait (h : TreeInv t) {c : Fin NPROC} (hc : (t.proc c).state = .RUNNING)
    (hidle : (t.proc c).fork = .idle) (copyOk : Bool) : TreeInv (Xv6.wait t c copyOk).1 := by
  unfold Xv6.wait
  cases hs : (waitScan t c).1 with
  | some pp =>
    have hz := (waitScan_some hs).2
    cases copyOk
    · exact h
    · exact h.freeZombie hz
  | none =>
    dsimp only
    split_ifs
    · exact h
    · dsimp only
      exact h.setLive c (fun _ => rfl) (fun _ => rfl) (fun _ => rfl) (by rw [hc]; rfl) (by rfl)
        (fun hne => absurd hidle hne)

end TreeInv

/-! ### Boot and every run -/

theorem allocSlot_procinit : allocSlot procinit = some 0 := by decide

theorem userinit_proc_zero :
    (userinit procinit).proc 0 = { Proc.unused with pid := 1, state := .RUNNABLE } := by
  simp only [userinit, allocproc, allocSlot_procinit]
  simp [procinit, PTable.set]

theorem userinit_proc_of_ne {i : Fin NPROC} (hi : i ≠ 0) :
    (userinit procinit).proc i = Proc.unused := by
  simp only [userinit, allocproc, allocSlot_procinit]
  simp [procinit, hi, PTable.set]

theorem userinit_initproc : (userinit procinit).initproc = some 0 := by
  simp only [userinit, allocproc, allocSlot_procinit]
  simp

theorem userinit_nextpid : (userinit procinit).nextpid = 2 := by
  simp only [userinit, allocproc, allocSlot_procinit]
  simp [procinit, PTable.set]

/-- After `userinit` the only process is `initproc`, with pid 1 and no parent. -/
theorem treeInv_userinit : TreeInv (userinit procinit) := by
  have hslot : ∀ i, ((userinit procinit).proc i).parent = none ∧
      ((userinit procinit).proc i).fork = .idle := by
    intro i
    rcases eq_or_ne i 0 with rfl | hi
    · rw [userinit_proc_zero]
      exact ⟨rfl, rfl⟩
    · rw [userinit_proc_of_ne hi]
      exact ⟨rfl, rfl⟩
  have hfree : ∀ i, ((userinit procinit).proc i).state ≠ .UNUSED → i = 0 := by
    intro i hu
    by_contra hi
    rw [userinit_proc_of_ne hi] at hu
    exact hu rfl
  have hno : ∀ q pp, ¬ ParentOf (userinit procinit) q pp := fun q pp hq => by
    rw [ParentOf, (hslot q).1] at hq
    cases hq
  have hnofork : ∀ c np, ¬ ForksOf (userinit procinit) c np := fun c np hf =>
    hf.ne_idle (hslot c).2
  refine ⟨⟨0, userinit_initproc, by rw [userinit_proc_zero]; rfl, (hslot 0).1,
      by rw [userinit_proc_zero]⟩, fun q _ => hslot q, fun q hq => ?_, fun q hq hi => ?_,
    fun q hq _ hi => ?_, fun q pp hq => absurd hq (hno q pp), fun q pp hq => absurd hq (hno q pp),
    fun q hq => ?_, fun c _ np hc => absurd hc (hnofork c np),
    fun c np hc => absurd (.inl hc) (hnofork c np), fun c np hc => absurd (.inr hc) (hnofork c np)⟩
  · rw [hfree q hq, userinit_proc_zero, userinit_nextpid]
    decide
  · exact absurd (by rw [hfree q hq, userinit_initproc]) hi
  · exact absurd (by rw [hfree q hq, userinit_initproc]) hi
  · have hq0 := hfree q (by rw [hq]; decide)
    rw [hq0, userinit_proc_zero] at hq
    cases hq

/-- The invariant holds in every reachable table: one case per step of the system. -/
theorem PReach.inv {t : PTable} (h : PReach t) : TreeInv t := by
  induction h with
  | boot => exact treeInv_userinit
  | step _ hs ih =>
    cases hs with
    | forkAlloc allocOk copyOk hc hidle => exact ih.forkAlloc hc hidle allocOk copyOk
    | forkLink hc hf => exact ih.forkLink hc hf
    | forkRun hc hf => exact ih.forkRun hc hf
    | exit status hc hidle hex => exact ih.exit hc hidle hex
    | wait copyOk hc hidle => exact ih.wait hc hidle copyOk
    | kill pid => exact ih.of_frame (kill_frame _ pid).1 (kill_frame _ pid).2
    | schedule hr =>
      exact ih.setLive _ (fun _ => rfl) (fun _ => rfl) (fun _ => rfl) (by rw [hr]; rfl) (by rfl)
        (fun _ => by rfl)
    | yield hc =>
      exact ih.setLive _ (fun _ => rfl) (fun _ => rfl) (fun _ => rfl) (by rw [hc]; rfl) (by rfl)
        (fun _ => by rfl)
    | sleep a hc hidle =>
      exact ih.setLive _ (fun _ => rfl) (fun _ => rfl) (fun _ => rfl) (by rw [hc]; rfl) (by rfl)
        (fun hne => absurd hidle hne)
    | wakeup a => exact ih.of_frame (wakeup_frame _ _) (wakeup_parent _ _)

/-! ### The tree -/

section Tree

variable {t : PTable}

/-- Parent pointers go to smaller pids, so they never close a cycle. -/
theorem TreeInv.acyclic (h : TreeInv t) (q : Fin NPROC) : ¬ Relation.TransGen (ParentOf t) q q :=
  Forest.not_transGen_self h.parent_pid q

/-- Every process, not only those set up by a `fork` still going on, descends from
`initproc`. -/
theorem TreeInv.rooted (h : TreeInv t) {r : Fin NPROC} (hr : t.initproc = some r) (q : Fin NPROC)
    (hu : (t.proc q).state ≠ .UNUSED) (hused : (t.proc q).state ≠ .USED) :
    Relation.ReflTransGen (ParentOf t) q r := by
  refine Forest.reaches_root h.parent_pid (P := fun q => (t.proc q).state ≠ .UNUSED ∧
    (t.proc q).state ≠ .USED) ?_ q ⟨hu, hused⟩
  rintro a ⟨hau, haused⟩ har
  obtain ⟨pp, hpp⟩ := h.has_parent a hau haused (by rw [hr]; exact fun e => har (Option.some.inj e).symm)
  have hl := h.parent_live a pp hpp
  exact ⟨pp, hpp, ProcState.ne_unused_of_live hl, ProcState.ne_used_of_live hl⟩

end Tree

/-- A pass of `wait` that returns a pid found a zombie child with that pid and freed its slot,
and only that slot. -/
theorem wait_returned (t : PTable) (c : Fin NPROC) (copyOk : Bool) {r : Int}
    (hr : (wait t c copyOk).2 = .returned r) (hr1 : r ≠ -1) :
    ∃ pp, ParentOf t pp c ∧ (t.proc pp).state = .ZOMBIE ∧ ((t.proc pp).pid : Int) = r ∧
      (wait t c copyOk).1 = t.set pp freeproc := by
  unfold wait at hr ⊢
  cases hs : (waitScan t c).1 with
  | some pp =>
    rw [hs] at hr
    obtain ⟨hpp, hz⟩ := waitScan_some hs
    cases copyOk
    · -- the status could not be stored: `-1`, and the child stays
      cases hr
      exact absurd rfl hr1
    · cases hr
      exact ⟨pp, hpp, hz, rfl, rfl⟩
  | none =>
    rw [hs] at hr
    dsimp only at hr
    split_ifs at hr
    · cases hr
      exact absurd rfl hr1

/-- What the process tree guarantees in a table: parent pointers go to live processes; every
process but `initproc` and the children `fork` is still setting up has one; following them
leads to `initproc` and never round a cycle; every zombie has a parent that can reap it; and
`wait` returns a pid only by freeing a zombie child with that pid. -/
structure TreeSpec (t : PTable) : Prop where
  parent_live : ∀ q pp, ParentOf t q pp → (t.proc pp).state.live
  has_parent : ∀ q, (t.proc q).state ≠ .UNUSED → (t.proc q).state ≠ .USED →
    t.initproc ≠ some q → ∃ pp, ParentOf t q pp
  rooted : ∃ r, t.initproc = some r ∧ (t.proc r).state.live ∧ ∀ q,
    (t.proc q).state ≠ .UNUSED → (t.proc q).state ≠ .USED → Relation.ReflTransGen (ParentOf t) q r
  acyclic : ∀ q, ¬ Relation.TransGen (ParentOf t) q q
  zombie : ∀ q, (t.proc q).state = .ZOMBIE → ∃ pp, ParentOf t q pp ∧ (t.proc pp).state.live
  wait_frees : ∀ c copyOk r, (wait t c copyOk).2 = .returned r → r ≠ -1 →
    ∃ pp, ParentOf t pp c ∧ (t.proc pp).state = .ZOMBIE ∧ ((t.proc pp).pid : Int) = r ∧
      (wait t c copyOk).1 = t.set pp freeproc

theorem proc_tree_invariant {t : PTable} (h : PReach t) : TreeSpec t := by
  have hi := h.inv
  obtain ⟨r, hr, hrl, -, -⟩ := hi.init
  have hzr : ∀ q, (t.proc q).state = .ZOMBIE → t.initproc ≠ some q := by
    rintro q hz e
    rw [hr] at e
    cases e
    rw [hz] at hrl
    cases hrl
  refine ⟨hi.parent_live, hi.has_parent, ⟨r, hr, hrl, hi.rooted hr⟩, hi.acyclic, fun q hz => ?_,
    fun c copyOk _ => wait_returned t c copyOk⟩
  obtain ⟨pp, hpp⟩ := hi.has_parent q (by rw [hz]; decide) (by rw [hz]; decide) (hzr q hz)
  exact ⟨pp, hpp, hi.parent_live q pp hpp⟩

/-- The first process, scheduled, past the first section of a `fork`. -/
def forkHalfway : PTable := (forkAlloc (schedule (userinit procinit) 0) 0 true true).1

theorem forkHalfway_reachable : PReach forkHalfway := by
  have hrun : ((schedule (userinit procinit) 0).proc 0).state = .RUNNING := by
    simp [schedule]
  have hidle : ((schedule (userinit procinit) 0).proc 0).fork = .idle := by
    simp [schedule, userinit_proc_zero, Proc.unused]
  exact .step (.step .boot (.schedule (by rw [userinit_proc_zero]))) (.forkAlloc true true hrun hidle)

/-- Between `fork`'s first and second sections the child's slot is in use and has no
parent. -/
theorem forkHalfway_orphan : PReach forkHalfway ∧ (forkHalfway.proc 1).state = .USED ∧
    forkHalfway.initproc ≠ some 1 ∧ (forkHalfway.proc 1).parent = none :=
  ⟨forkHalfway_reachable, by decide, by decide, by decide⟩

theorem proc_tree_invariant_forkHalfway : PReach forkHalfway ∧ TreeSpec forkHalfway :=
  ⟨forkHalfway_reachable, proc_tree_invariant forkHalfway_reachable⟩

end Xv6
