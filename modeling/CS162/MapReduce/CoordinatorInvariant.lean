import CS162.MapReduce.CoordinatorRun

/-!
`Consistent` holds in every reachable state, and a request the environment may
make is always served: no handler leaves its memory. The step proof has three
parts. A request that changes no job is a frame; one that changes a job already
in the table is an update of that job; an accepted submission adds a job of
which the log cannot know anything yet.
-/

namespace CS162.MapReduce
open CS162.Library

theorem consistent_init : Consistent World.initial where
  nextId := Int.le_refl 0
  ids id job h := nomatch h
  nodup := List.nodup_nil
  queued id := by simp [World.initial, coordinatorInit]
  live id job h := nomatch h
  freed id job h := nomatch h
  handed id r i h := nomatch h
  admitted id r i h := nomatch h

/-- An event that says nothing about a job: it hands out none of its tasks and
reports none successful. -/
def Event.quiet (e : Event) (id : Int) : Prop :=
  ∀ r i, e.reply.handsOut id r i = false ∧ e.reports id r i = false

theorem Live.quiet {e : Event} {log : List Event} {id : Int} {job : Job} (q : e.quiet id)
    (h : Live log id job) : Live (e :: log) id job :=
  h.congr (fun r i => by simp [(q r i).2]) (fun r i => by simp [lastHandout_cons, (q r i).1])

section Steps
variable {w : World} {e : Event} {coord : Coordinator}

theorem Consistent.frame (h : Consistent w)
    (jobs : coord.allJob = w.coord.allJob) (queue : coord.waitingQueue = w.coord.waitingQueue)
    (next : w.coord.nextId ≤ coord.nextId)
    (quiet : ∀ id ∈ w.coord.waitingQueue, e.quiet id)
    (hands : ∀ id r i, e.reply.handsOut id r i = false)
    (admitted : ∀ id r i, e.reports id r i = true → handedOut w.log id r i = true) :
    Consistent ⟨coord, e :: w.log⟩ where
  nextId := h.nextId.trans next
  ids id job hj := by
    obtain ⟨h1, h2, h3, h4⟩ := h.ids id job (jobs ▸ hj)
    exact ⟨h1, h2, h3.trans next, h4⟩
  nodup := queue ▸ h.nodup
  queued id := by simpa only [jobs, queue] using h.queued id
  live id job hj undone := by
    have hj' : w.coord.allJob id = some job := jobs ▸ hj
    exact (h.live id job hj' undone).quiet (quiet id ((h.queued id).mpr ⟨job, hj', undone⟩))
  freed id job hj := h.freed id job (jobs ▸ hj)
  handed id r i hi := by
    simp only [handedOut_cons, hands, Bool.false_or] at hi
    simpa only [jobs] using h.handed id r i hi
  admitted id r i hi := by
    simp only [reported_cons, Bool.or_eq_true] at hi
    simp only [handedOut_cons, Bool.or_eq_true]
    exact .inr (hi.elim (admitted id r i) (h.admitted id r i))

theorem Consistent.update (h : Consistent w) {id : Int} {job job' : Job}
    (found : w.coord.allJob id = some job) (undone : job.done = false)
    (jobs : coord.allJob = Function.update w.coord.allJob id (some job'))
    (next : coord.nextId = w.coord.nextId)
    (queue : coord.waitingQueue =
      if job'.done then w.coord.waitingQueue.erase id else w.coord.waitingQueue)
    (shape : job'.jobId = job.jobId ∧ ∀ r, job'.size r = job.size r)
    (others : ∀ id', id' ≠ id → e.quiet id')
    (hands : ∀ r i, e.reply.handsOut id r i = true → 0 ≤ i ∧ i < job.size r)
    (admitted : ∀ r i, e.reports id r i = true → handedOut w.log id r i = true)
    (alive : job'.done = false → Live (e :: w.log) id job')
    (dead : job'.done = true → job'.mem = none) : Consistent ⟨coord, e :: w.log⟩ where
  nextId := next ▸ h.nextId
  ids id' j hj := by
    simp only [jobs, next] at hj ⊢
    by_cases heq : id' = id
    · subst heq
      simp only [Function.update_self, Option.some.injEq] at hj
      subst hj
      obtain ⟨h1, h2, h3, h4⟩ := h.ids id' job found
      have := shape.2 false
      simp only [Job.size, Bool.false_eq_true, if_false] at this
      exact ⟨shape.1.trans h1, h2, h3, this ▸ h4⟩
    · rw [Function.update_of_ne heq] at hj
      exact h.ids id' j hj
  nodup := by
    rw [queue]
    split
    · exact h.nodup.erase id
    · exact h.nodup
  queued id' := by
    simp only [jobs, queue]
    by_cases heq : id' = id
    · subst heq
      simp only [Function.update_self, Option.some.injEq, exists_eq_left']
      cases hd : job'.done with
      | true => simp [h.nodup.not_mem_erase]
      | false => simpa using (h.queued id').mpr ⟨job, found, undone⟩
    · rw [Function.update_of_ne heq, ← h.queued id']
      split
      · exact List.mem_erase_of_ne heq
      · rfl
  live id' j hj hd := by
    simp only [jobs] at hj
    by_cases heq : id' = id
    · subst heq
      simp only [Function.update_self, Option.some.injEq] at hj
      subst hj
      exact alive hd
    · rw [Function.update_of_ne heq] at hj
      exact (h.live id' j hj hd).quiet (others id' heq)
  freed id' j hj hd := by
    simp only [jobs] at hj
    by_cases heq : id' = id
    · subst heq
      simp only [Function.update_self, Option.some.injEq] at hj
      subst hj
      exact dead hd
    · rw [Function.update_of_ne heq] at hj
      exact h.freed id' j hj hd
  handed id' r i hi := by
    simp only [handedOut_cons, Bool.or_eq_true] at hi
    by_cases heq : id' = id
    · subst heq
      refine ⟨job', by simp [jobs], ?_⟩
      rw [shape.2 r]
      cases hi with
      | inl hi => exact hands r i hi
      | inr hi =>
          obtain ⟨j, hj, range⟩ := h.handed id' r i hi
          cases found.symm.trans hj
          exact range
    · simp only [(others id' heq r i).1, Bool.false_eq_true, false_or] at hi
      obtain ⟨j, hj, range⟩ := h.handed id' r i hi
      exact ⟨j, by simpa [jobs, heq] using hj, range⟩
  admitted id' r i hi := by
    simp only [reported_cons, Bool.or_eq_true] at hi
    simp only [handedOut_cons, Bool.or_eq_true]
    refine .inr (hi.elim (fun hi => ?_) (h.admitted id' r i))
    by_cases heq : id' = id
    · subst heq
      exact admitted r i hi
    · simp [(others id' heq r i).2] at hi

theorem Consistent.unheard (h : Consistent w) {id : Int} (absent : w.coord.allJob id = none)
    (r : Bool) (i : Int) : handedOut w.log id r i = false ∧ reported w.log id r i = false := by
  have hout : handedOut w.log id r i = false := by
    by_contra hi
    obtain ⟨job, hj, _⟩ := h.handed id r i (by simpa using hi)
    simp [absent] at hj
  refine ⟨hout, ?_⟩
  by_contra hi
  simp [h.admitted id r i (by simpa using hi)] at hout

theorem lastHandout_eq_none {log : List Event} {id : Int} {r : Bool} {i : Int}
    (h : handedOut log id r i = false) : lastHandout log id r i = none := by
  simp only [handedOut, List.any_eq_false] at h
  simp only [lastHandout, Option.map_eq_none_iff, List.find?_eq_none]
  exact h

theorem live_newJob {log : List Event} {id : Int} (s : Coordinator) (req : SubmitJobRequest)
    (unheard : ∀ r i, handedOut log id r i = false ∧ reported log id r i = false) :
    Live log id (newJob s req) := by
  have fresh (r : Bool) (n : Int) : Tracks log id r n (allocateTasks n) := by
    refine ⟨by simp [allocateTasks], fun i t ht => ?_, fun i t ht => ?_⟩
    all_goals
      obtain rfl := List.eq_of_mem_replicate (List.mem_of_getElem? ht)
    · exact (unheard r i).2.symm
    · simp [lastHandout_eq_none (unheard r i).1]
  refine ⟨rfl, ⟨_, rfl, by simp [newJob], fun r => ?_⟩, fun r => ?_⟩
  · cases r
    · exact fresh false _
    · exact fresh true _
  · have none : countReported log id r ((newJob s req).size r) = 0 := by
      simp [countReported, (unheard r _).2]
    rw [none]
    cases r <;> exact Int.le_refl 0

theorem Consistent.accept (h : Consistent w) (req : SubmitJobRequest)
    (quiet : ∀ id, e.quiet id) :
    Consistent ⟨{ w.coord.setJob (w.coord.nextId + 1) (newJob w.coord req) with
      nextId := w.coord.nextId + 1,
      waitingQueue := w.coord.waitingQueue ++ [w.coord.nextId + 1] }, e :: w.log⟩ := by
  have absent : w.coord.allJob (w.coord.nextId + 1) = none := by
    by_contra hne
    obtain ⟨job, hj⟩ := Option.ne_none_iff_exists'.mp hne
    have := (h.ids _ job hj).2.2.1
    omega
  have notQueued : w.coord.nextId + 1 ∉ w.coord.waitingQueue := by
    intro hin
    obtain ⟨job, hj, _⟩ := (h.queued _).mp hin
    simp [absent] at hj
  have unheard (r : Bool) (i : Int) := h.unheard absent r i
  have hnext := h.nextId
  constructor
  case nextId => exact Int.le_add_one h.nextId
  case ids =>
    intro id job hj
    by_cases heq : id = w.coord.nextId + 1
    · subst heq
      simp only [Coordinator.setJob_self, Option.some.injEq] at hj
      subst hj
      exact ⟨rfl, by omega, Int.le_refl _, Int.natCast_nonneg _⟩
    · rw [Coordinator.setJob_of_ne _ _ heq] at hj
      obtain ⟨h1, h2, h3, h4⟩ := h.ids id job hj
      exact ⟨h1, h2, Int.le_add_one h3, h4⟩
  case nodup =>
    exact List.nodup_append.mpr ⟨h.nodup, List.nodup_singleton _, by
      intro a ha b hb
      simp only [List.mem_singleton] at hb
      subst hb
      rintro rfl
      exact notQueued ha⟩
  case queued =>
    intro id
    by_cases heq : id = w.coord.nextId + 1
    · subst heq
      simp [newJob]
    · rw [Coordinator.setJob_of_ne _ _ heq, ← h.queued id]
      simp [heq]
  case live =>
    intro id job hj hd
    by_cases heq : id = w.coord.nextId + 1
    · subst heq
      simp only [Coordinator.setJob_self, Option.some.injEq] at hj
      subst hj
      exact (live_newJob w.coord req unheard).quiet (quiet _)
    · rw [Coordinator.setJob_of_ne _ _ heq] at hj
      exact (h.live id job hj hd).quiet (quiet _)
  case freed =>
    intro id job hj hd
    by_cases heq : id = w.coord.nextId + 1
    · subst heq
      simp only [Coordinator.setJob_self, Option.some.injEq] at hj
      subst hj
      cases hd
    · rw [Coordinator.setJob_of_ne _ _ heq] at hj
      exact h.freed id job hj hd
  case handed =>
    intro id r i hi
    simp only [handedOut_cons, (quiet id r i).1, Bool.false_or] at hi
    obtain ⟨job, hj, range⟩ := h.handed id r i hi
    have heq : id ≠ w.coord.nextId + 1 := by
      rintro rfl
      simp [absent] at hj
    exact ⟨job, by rw [Coordinator.setJob_of_ne _ _ heq]; exact hj, range⟩
  case admitted =>
    intro id r i hi
    simp only [reported_cons, (quiet id r i).2, Bool.false_or] at hi
    simp [h.admitted id r i hi]

end Steps

/-- Handing out entry `i` stores the time the log now holds for it. -/
theorem Tracks.assign {log : List Event} {e : Event} {id : Int} {r : Bool} {n : Int}
    {table : List Task} {i : Nat} (h : Tracks log id r n table)
    (hands : ∀ k : Int, e.reply.handsOut id r k = true ↔ k = i)
    (silent : ∀ k, e.reports id r k = false) :
    Tracks (e :: log) id r n (table.modify i fun t => { t with time := e.now }) := by
  refine ⟨by simpa using h.length, fun k t hk => ?_, fun k t hk => ?_⟩
  all_goals
    simp only [List.getElem?_modify, Option.map_eq_map, Option.map_eq_some_iff] at hk
    obtain ⟨t', ht', rfl⟩ := hk
  · have := h.success k t' ht'
    split <;> simpa [silent] using this
  · rw [lastHandout_cons]
    by_cases heq : i = k
    · have hit := (hands k).mpr (by simp [heq])
      simp [heq, hit]
    · have miss : e.reply.handsOut id r k = false := by
        rw [Bool.eq_false_iff, ne_eq, hands k]
        omega
      simpa [heq, miss] using h.time k t' ht'

theorem Tracks.mark {log : List Event} {e : Event} {id : Int} {r : Bool} {n : Int}
    {table : List Task} {i : Nat} (h : Tracks log id r n table)
    (idle : ∀ k, e.reply.handsOut id r k = false)
    (reports : ∀ k : Int, e.reports id r k = true ↔ k = i) :
    Tracks (e :: log) id r n (table.modify i fun t => { t with success := true }) := by
  refine ⟨by simpa using h.length, fun k t hk => ?_, fun k t hk => ?_⟩
  all_goals
    simp only [List.getElem?_modify, Option.map_eq_map, Option.map_eq_some_iff] at hk
    obtain ⟨t', ht', rfl⟩ := hk
  · by_cases heq : i = k
    · have hit := (reports k).mpr (by simp [heq])
      simp [heq, hit]
    · have miss : e.reports id r k = false := by
        rw [Bool.eq_false_iff, ne_eq, reports k]
        omega
      simpa [heq, miss] using h.success k t' ht'
  · have := h.time k t' ht'
    rw [lastHandout_cons, idle]
    split <;> simpa using this

theorem Tracks.quiet {log : List Event} {e : Event} {id : Int} {r : Bool} {n : Int}
    {table : List Task} (h : Tracks log id r n table)
    (q : ∀ i, e.reply.handsOut id r i = false ∧ e.reports id r i = false) :
    Tracks (e :: log) id r n table :=
  ⟨h.length, fun i t hi => by simpa [(q i).2] using h.success i t hi,
    fun i t hi => by simpa [lastHandout_cons, (q i).1] using h.time i t hi⟩

/-- One more report raises the number of distinct tasks reported by at most one. -/
theorem countReported_le_succ (log : List Event) {e : Event} {id : Int} {r : Bool} (n : Int)
    {i : Nat} (reports : ∀ k : Int, e.reports id r k = true ↔ k = i) :
    countReported (e :: log) id r n ≤ countReported log id r n + 1 := by
  refine card_filter_le_succ (i := i) fun k hk => ?_
  have miss : e.reports id r k = false := by
    rw [Bool.eq_false_iff, ne_eq, reports k]
    omega
  simp [miss]

theorem countReported_succ (log : List Event) {e : Event} {id : Int} {r : Bool} {n : Int}
    {i : Nat} (reports : ∀ k : Int, e.reports id r k = true ↔ k = i) (hi : i < n.toNat)
    (first : reported log id r i = false) :
    countReported (e :: log) id r n = countReported log id r n + 1 := by
  refine card_filter_set (i := i) (Finset.mem_range.mpr hi) (by simp [first]) ?_ fun k hk => ?_
  · simp [(reports i).mpr rfl]
  · have miss : e.reports id r k = false := by
      rw [Bool.eq_false_iff, ne_eq, reports k]
      omega
    simp [miss]

@[simp] theorem Job.size_count (job : Job) (r r' : Bool) : (job.count r).size r' = job.size r' := by
  cases r <;> rfl

@[simp] theorem Job.finished_count (job : Job) (r : Bool) :
    (job.count r).finished r = job.finished r + 1 := by
  cases r <;> rfl

theorem Job.finished_count_of_ne (job : Job) {r r' : Bool} (h : r' ≠ r) :
    (job.count r).finished r' = job.finished r' := by
  cases r <;> cases r' <;> first | rfl | exact absurd rfl h

theorem report_quiet {now : Int} {r : FinishTaskRequest} {id : Int} (h : id ≠ r.jobId) :
    (Event.mk now (.finishTask r) .finished).quiet id := by
  intro reduce i
  refine ⟨rfl, ?_⟩
  rw [Bool.eq_false_iff, ne_eq, Event.reports_iff]
  rintro ⟨⟩
  exact h rfl

theorem reports_finish (now : Int) {r : FinishTaskRequest} (success : r.success = true)
    {i : Nat} (index : r.task = i) (k : Int) :
    (Event.mk now (.finishTask r) .finished).reports r.jobId r.reduce k = true ↔ k = i := by
  rw [Event.reports_iff]
  obtain ⟨id, task, reduce, success'⟩ := r
  simp only at success index
  simp [success, index, eq_comm]

theorem reports_other_phase {now : Int} {r : FinishTaskRequest} {reduce : Bool}
    (h : reduce ≠ r.reduce) (id k : Int) :
    (Event.mk now (.finishTask r) .finished).reports id reduce k = false := by
  rw [Bool.eq_false_iff, ne_eq, Event.reports_iff]
  rintro ⟨⟩
  exact h rfl

theorem handedOut_of_reports {w : World} {now : Int} {r : FinishTaskRequest}
    (names : w.names (.finishTask r) = true) {id : Int} {reduce : Bool} {i : Int}
    (h : (Event.mk now (.finishTask r) .finished).reports id reduce i = true) :
    handedOut w.log id reduce i = true := by
  have heq := Request.finishTask.inj (Event.reports_iff.mp h)
  rwa [heq] at names

theorem Consistent.undone {w : World} (h : Consistent w) :
    ∀ id ∈ w.coord.waitingQueue, ∀ job, w.coord.allJob id = some job → job.done = false := by
  intro id hid job hj
  obtain ⟨job', hj', hd⟩ := (h.queued id).mp hid
  cases hj.symm.trans hj'
  exact hd

theorem Consistent.effect {w : World} {c : Call} {reply : Reply} {coord : Coordinator}
    (h : Consistent w) (names : w.names c.request = true)
    (he : Effect c.now w.coord c.request reply coord) :
    Consistent ⟨coord, ⟨c.now, c.request, reply⟩ :: w.log⟩ := by
  obtain ⟨now, request⟩ := c
  simp only at he ⊢
  cases he with
  | refuse r unknown =>
      exact h.frame rfl rfl (Int.le_add_one (Int.le_refl _)) (fun _ _ _ _ => ⟨rfl, rfl⟩) (fun _ _ _ => rfl)
        (fun _ _ _ hr => by cases hr)
  | accept r known => exact h.accept r fun _ _ _ => ⟨rfl, rfl⟩
  | poll id reply known unknown =>
      exact h.frame rfl rfl (Int.le_refl _) (fun _ _ _ _ => ⟨rfl, rfl⟩) (fun _ _ _ => rfl)
        (fun _ _ _ hr => by cases hr)
  | wait reply waits idle =>
      have hands (id : Int) (r : Bool) (i : Int) : (Reply.task reply).handsOut id r i = false := by
        simp [Reply.handsOut, waits]
      exact h.frame rfl rfl (Int.le_refl _) (fun id _ r i => ⟨hands id r i, rfl⟩) hands
        (fun _ _ _ hr => by cases hr)
  | assign id job mem reduce i t reply queued found live entry test phase hands =>
      have hd := h.undone id queued job found
      have hid := (h.ids id job found).1
      obtain ⟨failed, ⟨mem', hm, hf, ht⟩, counted⟩ := h.live id job found hd
      cases live.symm.trans hm
      have out {id' : Int} {r' : Bool} {i' : Int} :
          (Reply.task reply).handsOut id' r' i' = true ↔ id' = id ∧ r' = reduce ∧ i' = i :=
        handsOut_task hands.1 (hands.2.1.trans hid) hands.2.2.1 hands.2.2.2
      have idle {id' : Int} {r' : Bool} {i' : Int} (hne : ¬ (id' = id ∧ r' = reduce ∧ i' = i)) :
          (Reply.task reply).handsOut id' r' i' = false := by
        rw [Bool.eq_false_iff, ne_eq, out]
        exact hne
      have inside : i < (mem.table reduce).length := (List.getElem?_eq_some_iff.mp entry).1
      refine h.update found hd rfl rfl (by simp [hd]) ⟨rfl, fun r => by cases r <;> rfl⟩ ?_ ?_
        (fun _ _ hr => by cases hr) ?_ (fun hd' => by simp [hd] at hd')
      · intro id' hne r' i'
        exact ⟨idle fun hh => hne hh.1, rfl⟩
      · intro r' i' hh
        obtain ⟨_, rfl, rfl⟩ := out.mp hh
        have := (ht r').length
        omega
      · intro _
        refine ⟨failed, ⟨_, rfl, by simpa [JobMemory.assign] using hf, fun r' => ?_⟩, fun r' => ?_⟩
        · by_cases hr : r' = reduce
          · subst hr
            rw [JobMemory.assign, JobMemory.table_setTable]
            exact (ht r').assign (fun k => by simp [out]) (fun _ => rfl)
          · rw [JobMemory.assign, JobMemory.table_setTable_of_ne mem _ hr]
            exact (ht r').quiet fun k => ⟨idle fun hh => hr hh.2.1, rfl⟩
        · exact counted r'
  | ignore r gone =>
      exact h.frame rfl rfl (Int.le_refl _) (fun id hid => report_quiet fun heq => gone (heq ▸ hid))
        (fun _ _ _ => rfl) (fun _ _ _ => handedOut_of_reports names)
  | fail r job queued found failure =>
      exact h.update found (h.undone _ queued job found) rfl rfl (by simp)
        ⟨rfl, fun r => by cases r <;> rfl⟩ (fun id hne => report_quiet hne)
        (fun _ _ hh => by cases hh) (fun _ _ => handedOut_of_reports names)
        (fun hd => by cases hd) (fun _ => rfl)
  | report r job mem i queued found live success index inside more =>
      have hd := h.undone _ queued job found
      obtain ⟨failed, ⟨mem', hm, hf, ht⟩, counted⟩ := h.live _ job found hd
      cases live.symm.trans hm
      have news := reports_finish now success index
      have hd' : (job.count r.reduce).done = false := by
        unfold Job.count
        split <;> exact hd
      refine h.update found hd rfl rfl (by simp [hd'])
        ⟨by unfold Job.count; split <;> rfl, fun r' => Job.size_count job r.reduce r'⟩
        (fun id hne => report_quiet hne) (fun _ _ hh => by cases hh)
        (fun _ _ => handedOut_of_reports names) (fun _ => ?_) (fun hh => by simp [hd'] at hh)
      · refine ⟨?_, ⟨_, rfl, ?_, fun r' => ?_⟩, fun r' => ?_⟩
        · unfold Job.count
          split <;> exact failed
        · have same : (job.count r.reduce).nMap = job.nMap := by
            unfold Job.count
            split <;> rfl
          simpa [JobMemory.mark, same] using hf
        · have hs : Job.size { job.count r.reduce with mem := some (mem.mark r.reduce i) } r' =
              job.size r' := Job.size_count job r.reduce r'
          rw [hs]
          by_cases hr : r' = r.reduce
          · subst hr
            rw [JobMemory.mark, JobMemory.table_setTable]
            exact (ht _).mark (fun _ => rfl) news
          · rw [JobMemory.mark, JobMemory.table_setTable_of_ne mem _ hr]
            exact (ht r').quiet fun k => ⟨rfl, reports_other_phase hr _ k⟩
        · have hs : Job.size { job.count r.reduce with mem := some (mem.mark r.reduce i) } r' =
              job.size r' := Job.size_count job r.reduce r'
          have hc := counted r'
          rw [hs]
          change _ ≤ (job.count r.reduce).finished r'
          by_cases hr : r' = r.reduce
          · subst hr
            have := countReported_le_succ w.log (job.size r.reduce) news
            rw [Job.finished_count]
            omega
          · rw [Job.finished_count_of_ne job hr]
            have same : countReported (⟨now, .finishTask r, .finished⟩ :: w.log) r.jobId r'
                (job.size r') = countReported w.log r.jobId r' (job.size r') :=
              countReported_congr fun k => by simp [reports_other_phase hr]
            rwa [same]
  | complete r job mem i queued found live success reduce index inside last =>
      exact h.update found (h.undone _ queued job found) rfl rfl (by simp)
        ⟨rfl, fun r => by cases r <;> rfl⟩ (fun id hne => report_quiet hne)
        (fun _ _ hh => by cases hh) (fun _ _ => handedOut_of_reports names)
        (fun hd => by cases hd) (fun _ => rfl)

/-- What one step of a run does: a request with one of the listed effects, written
to the log. -/
theorem step_effect {w w' : World} {c : Call} (h : Consistent w) (hs : w.serve c = some w') :
    ∃ reply coord, w.names c.request = true ∧ Effect c.now w.coord c.request reply coord ∧
      w' = ⟨coord, ⟨c.now, c.request, reply⟩ :: w.log⟩ := by
  rw [World.serve] at hs
  split at hs
  next names =>
    split at hs
    next coord reply heq =>
      cases hs
      have room (r : SubmitJobRequest) (asked : c.request = .submitJob r) : w.coord.nextId < intMax := by
        rw [asked] at names
        exact of_decide_eq_true names
      exact ⟨reply, coord, names, handle_effect h.nextId room h.undone heq, rfl⟩
    next => cases hs
  next => cases hs

theorem Consistent.serve {w w' : World} {c : Call} (h : Consistent w)
    (hs : w.serve c = some w') : Consistent w' := by
  obtain ⟨reply, coord, names, he, rfl⟩ := step_effect h hs
  exact h.effect names he

theorem anyClock_consistent {w : World} (h : anyClock.Reachable w) : Consistent w :=
  h.invariant (fun _ start => start ▸ consistent_init) fun _ _ _ hc hs => hc.serve hs

theorem reachable_consistent {w : World} (h : mapReduce.Reachable w) : Consistent w :=
  anyClock_consistent (anyClock_of_mapReduce h)

end CS162.MapReduce
