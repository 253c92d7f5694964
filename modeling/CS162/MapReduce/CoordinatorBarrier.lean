import CS162.MapReduce.CoordinatorInvariant

/-!
The phase barrier. `update_job_info` counts every success report it receives for
a queued job, also one for a task whose flag is already set, so the counters
equal the numbers of distinct finished tasks only in runs where no task of a
queued job is reported successful twice. In those runs reduce tasks wait for all
map tasks, and a job polled as done has finished every task.
-/

namespace CS162.MapReduce
open CS162.Library

/-- A success report for a task of phase `r` of a queued job is the first one. -/
def FirstReport (r : Bool) (w : World) (c : Call) : Prop :=
  ∀ f ∈ c.request.finish?, f.success = true → f.reduce = r →
    f.jobId ∈ w.coord.waitingQueue → reported w.log f.jobId r f.task = false

def FirstReports (w : World) (c : Call) : Prop := ∀ r, FirstReport r w c

instance (r : Bool) (w : World) (c : Call) : Decidable (FirstReport r w c) :=
  inferInstanceAs (Decidable (∀ f ∈ c.request.finish?, _))

instance (w : World) (c : Call) : Decidable (FirstReports w c) :=
  inferInstanceAs (Decidable (∀ r, FirstReport r w c))

/-- Where an unfinished job of the table comes from: it is new, or it was there
with the same sizes, and its counters have moved by the one task reported. -/
inductive JobStep (now : Int) (w : World) (request : Request) (reply : Reply) (id : Int)
    (job' : Job) : Prop where
  | new (req : SubmitJobRequest) (asked : request = .submitJob req) (known : req.app ∈ apps)
      (fresh : job' = newJob w.coord req) (absent : w.coord.allJob id = none)
      (silent : ∀ r i, (Event.mk now request reply).reports id r i = false)
  | same (job : Job) (found : w.coord.allJob id = some job) (undone : job.done = false)
      (sizes : ∀ r, job'.size r = job.size r) (counters : ∀ r, job'.finished r = job.finished r)
      (silent : ∀ r i, (Event.mk now request reply).reports id r i = false)
  | counted (job : Job) (f : FinishTaskRequest) (i : Nat) (asked : request = .finishTask f)
      (success : f.success = true) (named : f.jobId = id) (queued : id ∈ w.coord.waitingQueue)
      (found : w.coord.allJob id = some job) (undone : job.done = false)
      (index : f.task = i) (inside : i < (job.size f.reduce).toNat)
      (sizes : ∀ r, job'.size r = job.size r)
      (counter : job'.finished f.reduce = job.finished f.reduce + 1)
      (other : ∀ r, r ≠ f.reduce → job'.finished r = job.finished r)
      (more : f.reduce = true → job.reduceFinished + 1 ≠ job.nReduce)
      (reports : ∀ r (k : Int), (Event.mk now request reply).reports id r k = true ↔
        r = f.reduce ∧ k = i)

theorem Consistent.jobStep {w : World} {now : Int} {request : Request} {reply : Reply}
    {coord : Coordinator} {id : Int} {job' : Job} (h : Consistent w)
    (he : Effect now w.coord request reply coord) (hj : coord.allJob id = some job')
    (hd : job'.done = false) : JobStep now w request reply id job' := by
  cases he with
  | refuse r => exact .same job' hj hd (fun _ => rfl) (fun _ => rfl) (fun _ _ => rfl)
  | poll => exact .same job' hj hd (fun _ => rfl) (fun _ => rfl) (fun _ _ => rfl)
  | wait => exact .same job' hj hd (fun _ => rfl) (fun _ => rfl) (fun _ _ => rfl)
  | accept r known =>
      by_cases heq : id = w.coord.nextId + 1
      · subst heq
        simp only [Coordinator.setJob_self, Option.some.injEq] at hj
        refine .new r rfl known hj.symm ?_ (fun _ _ => rfl)
        by_contra hne
        obtain ⟨job, hj⟩ := Option.ne_none_iff_exists'.mp hne
        have := (h.ids _ job hj).2.2.1
        omega
      · rw [Coordinator.setJob_of_ne _ _ heq] at hj
        exact .same job' hj hd (fun _ => rfl) (fun _ => rfl) (fun _ _ => rfl)
  | assign id' job mem reduce i t reply queued found =>
      by_cases heq : id = id'
      · subst heq
        simp only [Coordinator.setJob_self, Option.some.injEq] at hj
        subst hj
        exact .same job found hd (fun r => by cases r <;> rfl) (fun r => by cases r <;> rfl)
          (fun _ _ => rfl)
      · rw [Coordinator.setJob_of_ne _ _ heq] at hj
        exact .same job' hj hd (fun _ => rfl) (fun _ => rfl) (fun _ _ => rfl)
  | ignore r gone =>
      have queued : id ∈ w.coord.waitingQueue := (h.queued id).mpr ⟨job', hj, hd⟩
      exact .same job' hj hd (fun _ => rfl) (fun _ => rfl)
        (fun reduce i => (report_quiet (fun heq => gone (heq ▸ queued)) reduce i).2)
  | fail r job queued found failure =>
      by_cases heq : id = r.jobId
      · subst heq
        simp only [Coordinator.setJob_self, Option.some.injEq] at hj
        subst hj
        cases hd
      · rw [Coordinator.setJob_of_ne _ _ heq] at hj
        exact .same job' hj hd (fun _ => rfl) (fun _ => rfl)
          (fun reduce i => (report_quiet heq reduce i).2)
  | report r job mem i queued found live success index inside more =>
      by_cases heq : id = r.jobId
      · subst heq
        simp only [Coordinator.setJob_self, Option.some.injEq] at hj
        subst hj
        have undone := h.undone _ queued job found
        obtain ⟨mem', hm, _, ht⟩ := (h.live _ job found undone).arrays
        cases live.symm.trans hm
        refine .counted job r i rfl success rfl queued found undone index
          ((ht r.reduce).length ▸ inside) (fun r' => Job.size_count job r.reduce r')
          (Job.finished_count job r.reduce)
          (fun r' hne => Job.finished_count_of_ne job hne) more.2 fun r' k => ?_
        by_cases hr : r' = r.reduce
        · subst hr
          simpa using reports_finish _ success index k
        · simp [reports_other_phase hr, hr]
      · rw [Coordinator.setJob_of_ne _ _ heq] at hj
        exact .same job' hj hd (fun _ => rfl) (fun _ => rfl)
          (fun reduce i => (report_quiet heq reduce i).2)
  | complete r job mem i queued found live success reduce index inside last =>
      by_cases heq : id = r.jobId
      · subst heq
        simp only [Coordinator.setJob_self, Option.some.injEq] at hj
        subst hj
        cases hd
      · rw [Coordinator.setJob_of_ne _ _ heq] at hj
        exact .same job' hj hd (fun _ => rfl) (fun _ => rfl)
          (fun reduce i => (report_quiet heq reduce i).2)

theorem Consistent.keeps_job {w : World} {now : Int} {request : Request} {reply : Reply}
    {coord : Coordinator} (h : Consistent w) (he : Effect now w.coord request reply coord)
    {id : Int} {job : Job} (hj : w.coord.allJob id = some job) :
    ∃ job', coord.allJob id = some job' ∧ ∀ r, job'.size r = job.size r := by
  have moved {id' : Int} {old new : Job} (found : w.coord.allJob id' = some old)
      (sizes : ∀ r, new.size r = old.size r) :
      ∃ job', (w.coord.setJob id' new).allJob id = some job' ∧ ∀ r, job'.size r = job.size r := by
    by_cases heq : id = id'
    · subst heq
      cases found.symm.trans hj
      exact ⟨new, by simp, sizes⟩
    · exact ⟨job, by rwa [Coordinator.setJob_of_ne _ _ heq], fun _ => rfl⟩
  cases he with
  | refuse | poll | wait | ignore => exact ⟨job, hj, fun _ => rfl⟩
  | accept r =>
      have heq : id ≠ w.coord.nextId + 1 := by
        have := (h.ids id job hj).2.2.1
        omega
      exact ⟨job, by simpa [Coordinator.setJob, heq] using hj, fun _ => rfl⟩
  | assign id' job' mem reduce i t reply queued found =>
      exact moved found fun r => by cases r <;> rfl
  | fail r job' queued found => exact moved found fun r => by cases r <;> rfl
  | report r job' mem i queued found => exact moved found fun r' => Job.size_count job' r.reduce r'
  | complete r job' mem i queued found => exact moved found fun r => by cases r <;> rfl

/-- The counter of a phase is the number of distinct tasks reported. -/
def CounterExact (r : Bool) (w : World) : Prop :=
  ∀ id job, w.coord.allJob id = some job → job.done = false →
    job.finished r = countReported w.log id r (job.size r)

theorem counterExact_step {r : Bool} {w : World} {c : Call} {reply : Reply} {coord : Coordinator}
    (h : Consistent w) (exactCount : CounterExact r w) (first : FirstReport r w c)
    (he : Effect c.now w.coord c.request reply coord) :
    CounterExact r ⟨coord, ⟨c.now, c.request, reply⟩ :: w.log⟩ := by
  intro id job' hj hd
  cases h.jobStep he hj hd with
  | new req asked known fresh absent silent =>
      have zero : job'.finished r = 0 := by
        subst fresh
        cases r <;> rfl
      have none : countReported (⟨c.now, c.request, reply⟩ :: w.log) id r (job'.size r) = 0 := by
        simp [countReported, silent, (h.unheard absent r _).2]
      rw [none, zero]
      rfl
  | same job found undone sizes counters silent =>
      rw [counters, sizes, exactCount id job found undone]
      exact congrArg Nat.cast (countReported_congr fun i => by simp [silent]).symm
  | counted job f i asked success named queued found undone index inside sizes counter other more reports =>
      rw [sizes]
      by_cases hr : r = f.reduce
      · subst hr
        have fresh := first f (by simp [asked, Request.finish?]) success rfl (named ▸ queued)
        rw [named, index] at fresh
        rw [counter, exactCount id job found undone,
          countReported_succ w.log (fun k => by simp [reports]) inside fresh]
        rfl
      · rw [other r hr, exactCount id job found undone]
        have silent (k : Int) : (Event.mk c.now c.request reply).reports id r k = false := by
          rw [Bool.eq_false_iff, ne_eq, reports]
          exact fun hh => hr hh.1
        exact congrArg Nat.cast (countReported_congr fun k => by simp [silent]).symm

theorem all_reported_of_count {log : List Event} {id : Int} {r : Bool} {n : Int}
    (full : (countReported log id r n : Int) = n) :
    ∀ k, 0 ≤ k → k < n → reported log id r k = true := by
  have hn : (Finset.range n.toNat).card = countReported log id r n := by
    rw [Finset.card_range]
    omega
  have all := Finset.card_filter_eq_iff.mp hn.symm
  intro k lower upper
  have := all k.toNat (Finset.mem_range.mpr (by omega))
  rwa [Int.toNat_of_nonneg lower] at this

theorem countReported_of_all {log : List Event} {id : Int} {r : Bool} {n : Int}
    (all : ∀ k, 0 ≤ k → k < n → reported log id r k = true) :
    countReported log id r n = n.toNat := by
  have full : countReported log id r n = (Finset.range n.toNat).card := by
    refine Finset.card_filter_eq_iff.mpr fun i hi => ?_
    have := Finset.mem_range.mp hi
    exact all i (Int.natCast_nonneg i) (by omega)
  rwa [Finset.card_range] at full

/-- Every hand-out of a reduce task came after a success report for each map
task of its job. -/
def Barrier (w : World) : Prop :=
  ∀ later e earlier, w.log = later ++ e :: earlier → ∀ id i, e.reply.handsOut id true i = true →
    ∃ job, w.coord.allJob id = some job ∧
      ∀ k, 0 ≤ k → k < job.nMap → reported earlier id false k = true

/-- Every poll that answered done and not failed came after a success report for
each task of the job. -/
def PollsFinished (w : World) : Prop :=
  ∀ later e earlier, w.log = later ++ e :: earlier → ∀ id r, e.request = .pollJob id →
    e.reply = .polled r → r.invalidJobId = false → r.done = true → r.failed = false →
    ∃ job, w.coord.allJob id = some job ∧
      ∀ phase k, 0 ≤ k → k < job.size phase → reported earlier id phase k = true

/-- For every queued job the counters equal the numbers of distinct tasks
reported successful. -/
def CountersExact (w : World) : Prop :=
  ∀ id ∈ w.coord.waitingQueue, ∃ job, w.coord.allJob id = some job ∧
    job.mapFinished = countReported w.log id false job.nMap ∧
    job.reduceFinished = countReported w.log id true job.nReduce

def DoneReported (w : World) : Prop :=
  ∀ id job, w.coord.allJob id = some job → job.done = true → job.failed = false →
    ∀ phase k, 0 ≤ k → k < job.size phase → reported w.log id phase k = true

theorem barrier_step {w : World} {c : Call} {reply : Reply} {coord : Coordinator}
    (h : Consistent w) (counter : CounterExact false w) (barrier : Barrier w)
    (he : Effect c.now w.coord c.request reply coord) :
    Barrier ⟨coord, ⟨c.now, c.request, reply⟩ :: w.log⟩ := by
  refine history_cons ?_ ?_
  · intro id i hands
    obtain ⟨now, request⟩ := c
    simp only at he hands
    cases he with
    | assign id' job mem reduce j t reply queued found live entry test phase fields =>
        have hid := (h.ids id' job found).1
        obtain ⟨rfl, rfl, rfl⟩ := (handsOut_task fields.1 (fields.2.1.trans hid) fields.2.2.1
          fields.2.2.2).mp hands
        refine ⟨_, Coordinator.setJob_self _ _ _, ?_⟩
        have full := counter id job found (h.undone id queued job found)
        exact all_reported_of_count (full.symm.trans (phase rfl))
    | wait reply waits => simp [Reply.handsOut, waits] at hands
    | _ => cases hands
  · intro later e' earlier heq id i hands
    obtain ⟨job, hj, all⟩ := barrier later e' earlier heq id i hands
    obtain ⟨job', hj', sizes⟩ := h.keeps_job he hj
    exact ⟨job', hj', fun k lower upper => all k lower (upper.trans_eq (sizes false))⟩

theorem doneReported_step {w : World} {c : Call} {reply : Reply} {coord : Coordinator}
    (h : Consistent w) (names : w.names c.request = true) (counter : CounterExact true w)
    (barrier : Barrier w) (done : DoneReported w) (first : FirstReport true w c)
    (he : Effect c.now w.coord c.request reply coord) :
    DoneReported ⟨coord, ⟨c.now, c.request, reply⟩ :: w.log⟩ := by
  have old {id : Int} {job : Job} (hj : w.coord.allJob id = some job) (hd : job.done = true)
      (hf : job.failed = false) (phase : Bool) (k : Int) (lower : 0 ≤ k)
      (upper : k < job.size phase) :
      reported (⟨c.now, c.request, reply⟩ :: w.log) id phase k = true := by
    simp [done id job hj hd hf phase k lower upper]
  obtain ⟨now, request⟩ := c
  intro id job' hj hd hf
  simp only at he hj
  cases he with
  | refuse | poll | wait | ignore => exact old hj hd hf
  | accept r =>
      by_cases heq : id = w.coord.nextId + 1
      · subst heq
        simp only [Coordinator.setJob_self, Option.some.injEq] at hj
        subst hj
        cases hd
      · rw [Coordinator.setJob_of_ne _ _ heq] at hj
        exact old hj hd hf
  | assign id' job mem reduce i t reply queued found =>
      by_cases heq : id = id'
      · subst heq
        simp only [Coordinator.setJob_self, Option.some.injEq] at hj
        subst hj
        have := h.undone id queued job found
        simp [this] at hd
      · rw [Coordinator.setJob_of_ne _ _ heq] at hj
        exact old hj hd hf
  | fail r job queued found failure =>
      by_cases heq : id = r.jobId
      · subst heq
        simp only [Coordinator.setJob_self, Option.some.injEq] at hj
        subst hj
        cases hf
      · rw [Coordinator.setJob_of_ne _ _ heq] at hj
        exact old hj hd hf
  | report r job mem i queued found live success index inside more =>
      by_cases heq : id = r.jobId
      · subst heq
        simp only [Coordinator.setJob_self, Option.some.injEq] at hj
        subst hj
        have : (job.count r.reduce).done = job.done := by
          unfold Job.count
          split <;> rfl
        simp [this, more.1] at hd
      · rw [Coordinator.setJob_of_ne _ _ heq] at hj
        exact old hj hd hf
  | complete r job mem i queued found live success reduce index inside last =>
      by_cases heq : id = r.jobId
      · subst heq
        simp only [Coordinator.setJob_self, Option.some.injEq] at hj
        subst hj
        have undone := h.undone _ queued job found
        have news := reports_finish now success index
        intro phase
        cases phase with
        | false =>
            -- The reduce task was handed out, so the map phase was over then.
            have handed := handedOut_of_reports names ((news i).mpr rfl)
            obtain ⟨e, he, hands⟩ := List.any_eq_true.mp handed
            obtain ⟨later, earlier, hlog⟩ := List.append_of_mem he
            rw [reduce] at hands
            obtain ⟨job', hj', all⟩ := barrier later e earlier hlog _ _ hands
            cases found.symm.trans hj'
            intro k lower upper
            have : reported (later ++ [e] ++ earlier) r.jobId false k = true :=
              reported_mono (all k lower upper)
            simp only [List.append_assoc, List.singleton_append, ← hlog] at this
            simp [this]
        | true =>
            have inside' : i < (job.size r.reduce).toNat := by
              obtain ⟨mem', hm, _, ht⟩ := (h.live _ job found undone).arrays
              cases live.symm.trans hm
              have := (ht true).length
              rw [reduce]
              exact this ▸ inside
            have fresh := first r (Option.mem_some_self r) success reduce queued
            rw [index] at fresh
            have more := countReported_succ w.log news inside' (by rw [reduce]; exact fresh)
            rw [reduce] at more
            have exactCount := counter _ job found undone
            refine all_reported_of_count ?_
            change (countReported _ r.jobId true (job.size true) : Int) = job.size true
            rw [more, Int.natCast_add, ← exactCount]
            exact last
      · rw [Coordinator.setJob_of_ne _ _ heq] at hj
        exact old hj hd hf

theorem pollsFinished_step {w : World} {c : Call} {reply : Reply} {coord : Coordinator}
    (h : Consistent w) (polls : PollsFinished w) (done : DoneReported w)
    (he : Effect c.now w.coord c.request reply coord) :
    PollsFinished ⟨coord, ⟨c.now, c.request, reply⟩ :: w.log⟩ := by
  refine history_cons ?_ ?_
  · intro id r asked answered valid hd hf
    obtain ⟨now, request⟩ := c
    simp only at he asked answered
    subst asked
    cases he with
    | poll id reply known unknown =>
        cases answered
        cases hj : w.coord.allJob id with
        | none => simp [unknown hj] at valid
        | some job =>
            obtain rfl := known job hj
            exact ⟨job, rfl, fun phase k => done id job hj hd hf phase k⟩
  · intro later e' earlier heq id r asked answered valid hd hf
    obtain ⟨job, hj, all⟩ := polls later e' earlier heq id r asked answered valid hd hf
    obtain ⟨job', hj', sizes⟩ := h.keeps_job he hj
    exact ⟨job', hj', fun phase k lower upper => all phase k lower (upper.trans_eq (sizes phase))⟩

/-- What the first-report condition keeps along a run. -/
structure Exact (w : World) : Prop where
  counters : ∀ r, CounterExact r w
  barrier : Barrier w
  done : DoneReported w
  polls : PollsFinished w

theorem reachable_exact {w : World} (h : (mapReduce.under FirstReports).Reachable w) : Exact w := by
  refine h.invariant_of_reachable (fun s hs => ?_) (fun s c s' hr he hs => ?_)
  · cases hs
    refine Exact.mk (fun r id job hj => nomatch hj) ?_ (fun id job hj => nomatch hj) ?_
    · exact history_nil
    · exact history_nil
  · obtain ⟨hs, first⟩ := hs
    have hc := reachable_consistent hr.of_under
    obtain ⟨reply, coord, names, effect, rfl⟩ := step_effect hc (World.serve_of_next hs)
    exact ⟨fun r => counterExact_step hc (he.counters r) (first r) effect,
      barrier_step hc (he.counters false) he.barrier effect,
      doneReported_step hc names (he.counters true) he.barrier he.done (first true) effect,
      pollsFinished_step hc he.polls he.done effect⟩

/-- In every run that reports no task of a queued job successful twice, reduce
tasks are handed out only after the whole map phase, polls answer success only
for finished jobs, and the counters are the numbers of distinct reports. -/
theorem phaseBarrier_of_firstReports {w : World}
    (h : (mapReduce.under FirstReports).Reachable w) :
    Barrier w ∧ PollsFinished w ∧ CountersExact w := by
  have he := reachable_exact h
  refine ⟨he.barrier, he.polls, fun id hid => ?_⟩
  obtain ⟨job, hj, hd⟩ := ((reachable_consistent h.of_under).queued id).mp hid
  exact ⟨job, hj, he.counters false id job hj hd, he.counters true id job hj hd⟩

/-- A job with one map and one reduce task, run to its end and polled. -/
theorem phaseBarrier_of_one_job :
    ∃ w, w.log.any (fun e => e.reply == .polled ⟨true, false, false⟩) = true ∧
      Barrier w ∧ PollsFinished w ∧ CountersExact w := by
  obtain ⟨w, hr, hp⟩ := System.exists_reachable_under (· = World.initial) World.next FirstReports
    (fun w => w.log.any fun e => e.reply == .polled ⟨true, false, false⟩)
    rfl [⟨1, .submitJob (wordCount ["a"] 1)⟩, ⟨1, .getTask⟩, ⟨2, report 1 0 false⟩, ⟨2, .getTask⟩,
      ⟨3, report 1 0 true⟩, ⟨3, .pollJob 1⟩] (by decide)
  exact ⟨w, hp, phaseBarrier_of_firstReports hr⟩

/-- Two files; map task 0 times out, is handed out again, and both workers report
it. The counter reaches 2, and after map task 1 the reduce task is handed out
although nobody has reported map task 1. -/
theorem phaseBarrier_fails_on_repeated_report :
    ¬ ∀ w, mapReduce.Reachable w → Barrier w ∧ PollsFinished w ∧ CountersExact w := by
  intro all
  obtain ⟨w, hr, hp⟩ := System.exists_reachable (· = World.initial) World.next
    (fun w => match w.log with
      | e :: earlier => e.reply.handsOut 1 true 0 && (w.coord.allJob 1).all (fun j => j.nMap == 2) &&
          !reported earlier 1 false 1
      | [] => false)
    rfl [⟨1, .submitJob (wordCount ["a", "b"] 1)⟩, ⟨1, .getTask⟩, ⟨11, .getTask⟩,
      ⟨12, report 1 0 false⟩, ⟨12, report 1 0 false⟩, ⟨12, .getTask⟩, ⟨12, .getTask⟩] (by decide)
  split at hp
  next e earlier hlog =>
    simp only [Bool.and_eq_true, Bool.not_eq_true'] at hp
    obtain ⟨⟨hands, size⟩, missing⟩ := hp
    obtain ⟨job, hj, reports⟩ := (all w hr).1 [] e earlier hlog 1 0 hands
    have two : job.nMap = 2 := by simpa [hj] using size
    have := reports 1 (by decide) (by omega)
    rw [missing] at this
    cases this
  next => cases hp

end CS162.MapReduce
