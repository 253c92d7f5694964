import CS162.MapReduce.CoordinatorInvariant

/-!
The service answers: in a consistent world every request the environment may
make is handled without a fault, so runs are never cut short by the model.
-/

namespace CS162.MapReduce

theorem lookup_ok {s : Coordinator} {id : Int} {job : Job} (h : s.allJob id = some job) :
    s.lookup id = .ok job := by
  simp [Coordinator.lookup, h]

theorem memory_ok {job : Job} {mem : JobMemory} (h : job.mem = some mem) :
    job.memory = .ok mem := by
  simp [Job.memory, h]

theorem assignTask_ok {now : Int} {job : Job} {mem : JobMemory} {reply : GetTaskReply} {r : Bool}
    {i : Nat} (inside : r = false → i < mem.files.length) :
    ∃ out, assignTask now job mem reply r i = .ok out := by
  refine bind_ok ?_ fun _ _ => ⟨_, rfl⟩
  cases r with
  | true => exact ⟨_, rfl⟩
  | false =>
      simp only [initTaskReply, List.getElem?_eq_getElem (inside rfl)]
      exact ⟨_, rfl⟩

theorem findTask_ok {test : Task → Bool} {now : Int} {job : Job} {mem : JobMemory}
    {reply : GetTaskReply} (live : job.mem = some mem) (files : mem.maps.length = mem.files.length) :
    ∃ out, findTask test now job reply = .ok out := by
  refine bind_ok ⟨mem, memory_ok live⟩ fun mem' hm => ?_
  cases (memory_ok live).symm.trans hm
  split
  next i hi =>
    have inside := (List.findIdx?_eq_some_iff_getElem.mp hi).1
    exact bind_ok (assignTask_ok fun _ => files ▸ inside) fun _ _ => ⟨_, rfl⟩
  next =>
    split
    · split
      · exact bind_ok (assignTask_ok fun hr => nomatch hr) fun _ _ => ⟨_, rfl⟩
      · exact ⟨_, rfl⟩
    · exact ⟨_, rfl⟩

theorem searchQueue_ok {find : Job → GetTaskReply → Except Fault (Option (Job × GetTaskReply))}
    {s : Coordinator} {reply : GetTaskReply} {queue : List Int}
    (found : ∀ id ∈ queue, ∃ job, s.allJob id = some job ∧ ∃ out, find job reply = .ok out) :
    ∃ out, searchQueue find s reply queue = .ok out := by
  induction queue with
  | nil => exact ⟨none, rfl⟩
  | cons id queue ih =>
      obtain ⟨job, hj, out⟩ := found id List.mem_cons_self
      refine bind_ok ⟨job, lookup_ok hj⟩ fun job' hl => ?_
      cases (lookup_ok hj).symm.trans hl
      refine bind_ok out fun result _ => ?_
      cases result with
      | some p => exact ⟨_, rfl⟩
      | none => exact ih fun id' hid => found id' (List.mem_cons_of_mem _ hid)

section
variable {w : World} (h : Consistent w)
include h

theorem Consistent.getTask_ok (now : Int) : ∃ out, getTask now w.coord = .ok out := by
  have found (test : Task → Bool) (reply : GetTaskReply) : ∀ id ∈ w.coord.waitingQueue,
      ∃ job, w.coord.allJob id = some job ∧ ∃ out, findTask test now job reply = .ok out := by
    intro id hid
    obtain ⟨job, hj, hd⟩ := (h.queued id).mp hid
    obtain ⟨mem, hm, hf, ht⟩ := (h.live id job hj hd).arrays
    exact ⟨job, hj, findTask_ok hm ((ht false).length.trans hf.symm)⟩
  refine bind_ok (searchQueue_ok (found _ _)) fun first _ => ?_
  cases first with
  | some p => exact ⟨_, rfl⟩
  | none =>
      refine bind_ok (searchQueue_ok (found _ _)) fun second _ => ?_
      cases second with
      | some p => exact ⟨_, rfl⟩
      | none => exact ⟨_, rfl⟩

theorem Consistent.finishTask_ok {r : FinishTaskRequest}
    (handed : handedOut w.log r.jobId r.reduce r.task = true) :
    ∃ out, finishTask w.coord r = .ok out := by
  unfold finishTask
  split
  next => exact ⟨_, rfl⟩
  next queued =>
    have queued : r.jobId ∈ w.coord.waitingQueue := by simpa using queued
    obtain ⟨job, hj, hd⟩ := (h.queued _).mp queued
    obtain ⟨mem, hm, _, ht⟩ := (h.live _ job hj hd).arrays
    have marked : ∃ table, markSuccess (mem.table r.reduce) r.task = .ok table := by
      obtain ⟨job', hj', lower, upper⟩ := h.handed _ _ _ handed
      cases hj.symm.trans hj'
      have := (ht r.reduce).length
      exact ⟨_, if_pos ⟨lower, by omega⟩⟩
    -- The update keeps the arrays, which is all that releasing them needs.
    have updated : ∃ job', updateJobInfo job r = .ok job' ∧ ∃ mem', job'.mem = some mem' := by
      unfold updateJobInfo
      obtain ⟨table, hmark⟩ := marked
      cases hs : r.success with
      | false => exact ⟨_, rfl, mem, hm⟩
      | true =>
          rw [memory_ok hm]
          cases hr : r.reduce with
          | false =>
              simp only [hr, JobMemory.table, Bool.false_eq_true, if_false] at hmark
              exact ⟨_, by simp [hmark, bind, Except.bind, pure, Except.pure]; rfl, _, rfl⟩
          | true =>
              simp only [hr, JobMemory.table, if_true] at hmark
              simp only [hmark, bind, Except.bind, Bool.not_true, Bool.false_eq_true, if_false,
                if_true]
              split
              · exact ⟨_, rfl, _, rfl⟩
              · exact ⟨_, rfl, _, rfl⟩
    refine bind_ok ⟨job, lookup_ok hj⟩ fun job' hl => ?_
    cases (lookup_ok hj).symm.trans hl
    obtain ⟨job', hu, mem', hm'⟩ := updated
    refine bind_ok ⟨job', hu⟩ fun job'' hu' => ?_
    cases hu.symm.trans hu'
    split
    · exact bind_ok (bind_ok ⟨mem', memory_ok hm'⟩ fun _ _ => ⟨_, rfl⟩) fun _ _ => ⟨_, rfl⟩
    · exact ⟨_, rfl⟩

theorem Consistent.served {c : Call} (names : w.names c.request = true) :
    ∃ w', w.serve c = some w' := by
  have answered : ∃ out, handle c.now w.coord c.request = .ok out := by
    cases hc : c.request with
    | submitJob r => exact ⟨_, rfl⟩
    | pollJob id => exact ⟨_, rfl⟩
    | getTask => exact bind_ok (h.getTask_ok c.now) fun _ _ => ⟨_, rfl⟩
    | finishTask r =>
        rw [hc] at names
        exact bind_ok (h.finishTask_ok names) fun _ _ => ⟨_, rfl⟩
  obtain ⟨out, ho⟩ := answered
  exact ⟨_, by simp only [World.serve, names, if_true, ho]; rfl⟩

theorem Consistent.next_isSome {c : Call} (admits : w.admits c = true) :
    ∃ w', w.next c = some w' := by
  obtain ⟨w', hs⟩ := h.served (World.names_of_admits admits)
  refine ⟨w', ?_⟩
  rw [World.serve, if_pos (World.names_of_admits admits)] at hs
  rwa [World.next, if_pos admits]

end
end CS162.MapReduce
