import ConcurrentProgramming.Framework.Transition
import ConcurrentProgramming.Project1.Search

/-! # Sleeping and Waking Workers (`main.cc`, `trie.cc`)

    `main` creates 42 workers, each of which goes to sleep at once.  For a query it
    hands out arguments, sets `thread_is_sleep[i]` to false, signals the workers it
    needs, and spins until their flags are true again.  Then it moves the answers.

    One step is an access to `thread_is_sleep`, to `finished` or to `thread_args`,
    a critical section of `main`, a mutex or condition call of a worker, or the
    scan loop of a worker.  `main` holds `cond_mutex[i]` within one step only, and
    worker `i` from its lock to its wait and from its wake-up to its unlock.

    `pthread_cond_wait` may return without a signal, and nobody checks why it has
    returned.  Without such wake-ups every worker scans exactly what it is given
    (`handshake_exactly_once`), and the program prints what `search_all_patterns`
    describes (`handshake_output`).  With one of them a chunk can be scanned twice
    (`chunk_scanned_twice`).
-/

namespace Project1.Handshake

open LTS

/-! ## Section 1: Main and the workers -/

/-- Where `main` is. -/
inductive MainPoint where
  /-- At `thread_is_sleep[i] = false`, before thread `i` is created. -/
  | reset_new (i : ℕ)
  /-- At `pthread_create`. -/
  | create (i : ℕ)
  /-- At `while (thread_is_sleep[i] == false)`. -/
  | await_new (i : ℕ)
  /-- At `std::cin >> cmd`. -/
  | command
  /-- At the loop of `search_all_patterns` that prepares the arguments. -/
  | set_args (i : ℕ)
  /-- At the loop with `thread_is_sleep[i] = false`. -/
  | reset (i : ℕ)
  /-- At the loop that signals the workers. -/
  | signal (i : ℕ)
  /-- At `if (thread_is_sleep[i] == false)`, in the loop that waits for them. -/
  | check (i : ℕ)
  /-- Before the answers are moved to `global_answers`. -/
  | collect
  /-- `finished` is set, at the loop that wakes all threads. -/
  | stop (i : ℕ)
  /-- At `pthread_join`. -/
  | join (i : ℕ)
  deriving DecidableEq, Repr

/-- Where a worker is in `search_substring`. -/
inductive WorkerPoint where
  /-- The thread has not been created. -/
  | unborn
  /-- At `pthread_mutex_lock(&cond_mutex[tid])`. -/
  | lock
  /-- At `thread_is_sleep[tid] = true`. -/
  | set_sleep
  /-- At `pthread_cond_wait`, with the mutex. -/
  | enter_wait
  | asleep
  /-- Woken up, waiting for the mutex. -/
  | woken
  /-- At `pthread_mutex_unlock(&cond_mutex[tid])`. -/
  | unlock
  /-- At `while (!finished)`. -/
  | test_finished
  /-- At `thread_arg_t data = thread_args[tid]`. -/
  | read_args
  /-- In the scan loop. -/
  | scan (data : Option thread_arg_t)
  | terminated

/-- `main` finds the mutex free. -/
def WorkerPoint.mutex_free : WorkerPoint → Bool
  | .set_sleep | .enter_wait | .unlock => false
  | _ => true

/-- `pthread_cond_signal` or `pthread_cond_broadcast`: without a sleeper it has no
    effect. -/
def WorkerPoint.signal : WorkerPoint → WorkerPoint
  | .asleep => .woken
  | pt => pt

/-- What a worker finds; arguments that were never set have `search_length` 0. -/
def scan_answers (query : List Letter) (data : Option thread_arg_t) : List answer_t :=
  data.elim [] (search_substring query)

/-- The program.  `args` are the arguments for the query, as far as they are to be
    set.  For the statements only, `runs` are the arguments over which a worker has
    executed its scan loop since they were set, or for a worker without arguments
    since the query came, and `asked` are the queries that have been answered, with
    the roots that they were asked for. -/
structure State where
  main            : MainPoint
  worker          : ℕ → WorkerPoint
  thread_args     : ℕ → Option thread_arg_t
  thread_is_sleep : ℕ → Bool
  finished        : Bool
  root            : trie
  query           : List Letter
  args            : List thread_arg_t
  local_answers   : ℕ → List answer_t
  output          : List String
  runs            : ℕ → List (Option thread_arg_t)
  asked           : List (trie × List Letter)

namespace State

def start : State where
  main := .reset_new 0
  worker := fun _ => .unborn
  thread_args := fun _ => none
  thread_is_sleep := fun _ => false
  finished := false
  root := .null
  query := []
  args := []
  local_answers := fun _ => []
  output := []
  runs := fun _ => []
  asked := []

def set_worker (s : State) (tid : ℕ) (pt : WorkerPoint) : State :=
  { s with worker := Function.update s.worker tid pt }

/-- `thread_is_sleep[tid] = b`. -/
def set_sleep (s : State) (tid : ℕ) (b : Bool) : State :=
  { s with thread_is_sleep := Function.update s.thread_is_sleep tid b }

def go (s : State) (pt : MainPoint) : State := { s with main := pt }

/-- `main` locks the mutex of worker `i`, signals and unlocks. -/
def wake (s : State) (i : ℕ) (pt : MainPoint) : Option State :=
  if (s.worker i).mutex_free then some ((s.set_worker i (s.worker i).signal).go pt) else none

/-- The call of `search_all_patterns` up to the loop that prepares the arguments. -/
def begin_query (s : State) (root : trie) (query : List Letter) : State :=
  match root with
  | .null => s
  | .node _ chars => { s with
      main := .set_args 0
      root := root
      query := query
      args := Project1.thread_args chars query
      runs := fun _ => [] }

/-- `thread_args[i] = ..`. -/
def set_args (s : State) (i : ℕ) (data : thread_arg_t) : State :=
  { s with
    main := .set_args (i + 1)
    thread_args := Function.update s.thread_args i (some data)
    runs := Function.update s.runs i [] }

/-- The answers of all workers are moved, sorted and printed. -/
def print (s : State) (sort : StdSort) : State :=
  { s with
    main := .command
    local_answers := fun _ => []
    output := s.output ++
      [print_answers s.query (sort.run ((List.range THREAD_NUM).flatMap s.local_answers))]
    asked := s.asked ++ [(s.root, s.query)] }

/-- One step of `main`. -/
def main_step (s : State) (sort : StdSort) : Option State :=
  match s.main with
  | .reset_new i =>
      if i < THREAD_NUM then some ((s.set_sleep i false).go (.create i)) else some (s.go .command)
  | .create i =>
      some { (s.set_worker i .lock).go (.await_new i) with
        local_answers := Function.update s.local_answers i [] }
  | .await_new i => if s.thread_is_sleep i then some (s.go (.reset_new (i + 1))) else some s
  | .command => none
  | .set_args i =>
      match s.args[i]? with
      | some data => some (s.set_args i data)
      | none => some (s.go (.reset 0))
  | .reset i =>
      if i < s.args.length then some ((s.set_sleep i false).go (.reset (i + 1)))
      else some (s.go (.signal 0))
  | .signal i => if i < s.args.length then s.wake i (.signal (i + 1)) else some (s.go (.check 0))
  | .check i =>
      if i < s.args.length then
        if s.thread_is_sleep i then some (s.go (.check (i + 1))) else some (s.go (.check 0))
      else some (s.go .collect)
  | .collect => some (s.print sort)
  | .stop i => if i < THREAD_NUM then s.wake i (.stop (i + 1)) else some (s.go (.join 0))
  | .join i =>
      match s.worker i with
      | .terminated => some (s.go (.join (i + 1)))
      | _ => none

/-- The end of the scan loop. -/
def finish_scan (s : State) (tid : ℕ) (data : Option thread_arg_t) : State :=
  { s.set_worker tid .lock with
    local_answers := Function.update s.local_answers tid
      (s.local_answers tid ++ scan_answers s.query data)
    runs := Function.update s.runs tid (s.runs tid ++ [data]) }

/-- One step of worker `tid`. -/
def worker_step (s : State) (tid : ℕ) : Option State :=
  match s.worker tid with
  | .unborn => none
  | .lock => some (s.set_worker tid .set_sleep)
  | .set_sleep => some ((s.set_sleep tid true).set_worker tid .enter_wait)
  | .enter_wait => some (s.set_worker tid .asleep)
  | .asleep => none
  | .woken => some (s.set_worker tid .unlock)
  | .unlock => some (s.set_worker tid .test_finished)
  | .test_finished =>
      some (s.set_worker tid (if s.finished then .terminated else .read_args))
  | .read_args => some (s.set_worker tid (.scan (s.thread_args tid)))
  | .scan data => some (s.finish_scan tid data)
  | .terminated => none

/-- A return from `pthread_cond_wait` without a signal. -/
def wake_spuriously (s : State) (tid : ℕ) : Option State :=
  match s.worker tid with
  | .asleep => some (s.set_worker tid .woken)
  | _ => none

end State

inductive Label where
  | main
  /-- The command `Q`; the commands before it have built `root`. -/
  | query (root : trie) (text : List Letter)
  /-- The end of the input. -/
  | eof
  | worker (tid : ℕ)
  | spurious (tid : ℕ)

def State.perform (s : State) (sort : StdSort) : Label → Option State
  | .main => s.main_step sort
  | .query root text => if s.main = .command then some (s.begin_query root text) else none
  | .eof => if s.main = .command then some { s.go (.stop 0) with finished := true } else none
  | .worker tid => s.worker_step tid
  | .spurious tid => s.wake_spuriously tid

def workers (sort : StdSort) : System State Label where
  init := fun s => s = .start
  step := fun s l s' => s.perform sort l = some s'

/-- The step is no wake-up without a signal. -/
def not_spurious (_ : State) : Label → Bool
  | .spurious _ => false
  | _ => true

/-! ## Section 2: What a worker is up to -/

/-- What the invariant says about one worker depends on these values only. -/
structure View where
  worker          : WorkerPoint
  thread_is_sleep : Bool
  data            : Option thread_arg_t
  runs            : List (Option thread_arg_t)
  answers         : List answer_t

def State.view (s : State) (tid : ℕ) : View :=
  ⟨s.worker tid, s.thread_is_sleep tid, s.thread_args tid, s.runs tid, s.local_answers tid⟩

namespace View

/-- The worker is in `pthread_cond_wait` or about to enter it. -/
def in_wait (v : View) : Prop := v.worker = .enter_wait ∨ v.worker = .asleep

/-- The worker has not scanned. -/
def untouched (v : View) : Prop := v.runs = [] ∧ v.answers = []

/-- The worker has scanned its arguments once. -/
def scanned (v : View) (query : List Letter) : Prop :=
  v.runs = [v.data] ∧ v.answers = scan_answers query v.data

/-- The worker has been woken up and has not yet finished its scan. -/
def working (v : View) : Prop :=
  v.worker = .woken ∨ v.worker = .unlock ∨ v.worker = .test_finished ∨ v.worker = .read_args ∨
    v.worker = .scan v.data

/-- The worker is between its scan and `thread_is_sleep[tid] = true`. -/
def going_to_sleep (v : View) : Prop := v.worker = .lock ∨ v.worker = .set_sleep

end View

/-- How far a worker is, from the point of view of `main`. -/
inductive Stage where
  | unborn
  /-- About to be created. -/
  | new
  /-- Created, on its way to its first sleep. -/
  | fresh
  /-- Asleep between two queries. -/
  | idle
  /-- Asleep, not yet told about the query. -/
  | resting
  /-- Asleep, with `thread_is_sleep` set to false for the query. -/
  | dispatched
  /-- Signalled. -/
  | active
  /-- Asleep again, with its answers. -/
  | finished
  /-- The program is about to end. -/
  | ending
  deriving DecidableEq, Repr

/-- The stage of worker `t` when `k` workers have got arguments. -/
def MainPoint.stage (k t : ℕ) : MainPoint → Stage
  | .reset_new i => if t < i then .idle else .unborn
  | .create i => if t < i then .idle else if t = i then .new else .unborn
  | .await_new i => if t < i then .idle else if t = i then .fresh else .unborn
  | .command => .idle
  | .set_args _ => .resting
  | .reset i => if t < k ∧ t < i then .dispatched else .resting
  | .signal i => if t < k then if t < i then .active else .dispatched else .resting
  | .check i => if t < k then if t < i then .finished else .active else .resting
  | .collect => if t < k then .finished else .resting
  | .stop _ | .join _ => .ending

/-- What holds of a worker at a stage. -/
def worker_ok (query : List Letter) (v : View) : Stage → Prop
  | .unborn => v.worker = .unborn
  | .new => v.worker = .unborn ∧ v.thread_is_sleep = false
  | .fresh => v.answers = [] ∧
      ((v.going_to_sleep ∧ v.thread_is_sleep = false) ∨ (v.in_wait ∧ v.thread_is_sleep = true))
  | .idle => v.answers = [] ∧ v.in_wait ∧ v.thread_is_sleep = true
  | .resting => v.untouched ∧ v.in_wait ∧ v.thread_is_sleep = true
  | .dispatched => v.untouched ∧ v.in_wait ∧ v.thread_is_sleep = false
  | .active =>
      (v.untouched ∧ v.working ∧ v.thread_is_sleep = false) ∨
      (v.scanned query ∧ v.going_to_sleep ∧ v.thread_is_sleep = false) ∨
      (v.scanned query ∧ v.in_wait ∧ v.thread_is_sleep = true)
  | .finished => v.scanned query ∧ v.in_wait ∧ v.thread_is_sleep = true
  | .ending => True

/-- What only the start and the end of a query change. -/
structure Keeps (s s' : State) : Prop where
  finished : s'.finished = s.finished
  root     : s'.root = s.root
  query    : s'.query = s.query
  args     : s'.args = s.args
  output   : s'.output = s.output
  asked    : s'.asked = s.asked

section worker
variable {s s' : State} {t u : ℕ} {st : Stage}

/-- A step of a worker changes nothing else. -/
theorem worker_step_frame (hstep : s.worker_step t = some s') :
    Keeps s s' ∧ s'.main = s.main ∧ s'.thread_args = s.thread_args ∧
      ∀ u, u ≠ t → s'.view u = s.view u := by
  unfold State.worker_step at hstep
  cases hw : s.worker t <;> rw [hw] at hstep <;> cases hstep <;>
    refine ⟨⟨rfl, rfl, rfl, rfl, rfl, rfl⟩, rfl, rfl, fun u hu => ?_⟩ <;>
    simp [State.view, State.set_worker, State.set_sleep, State.finish_scan, hu]

/-- A step of a worker keeps what holds of it. -/
theorem worker_ok.own_step (h : worker_ok s.query (s.view t) st)
    (hrunning : st ≠ .ending → s.finished = false) (hstep : s.worker_step t = some s') :
    worker_ok s'.query (s'.view t) st := by
  unfold State.worker_step at hstep
  -- At most points the worker can be at few stages: the others contradict `h`.
  cases hw : s.worker t <;> rw [hw] at hstep <;> cases hstep <;> cases st <;>
    simp_all [worker_ok, State.view, View.in_wait, View.untouched, View.scanned, View.working,
      View.going_to_sleep, State.set_worker, State.set_sleep, State.finish_scan]

end worker

/-! ## Section 3: The invariant -/

/-- `main` is in `search_all_patterns`. -/
def MainPoint.searching : MainPoint → Bool
  | .set_args _ | .reset _ | .signal _ | .check _ | .collect => true
  | _ => false

/-- `main` has set the arguments of worker `t`, if it gets any. -/
def MainPoint.has_given (t : ℕ) : MainPoint → Prop
  | .set_args i => t < i
  | .reset _ | .signal _ | .check _ | .collect => True
  | _ => False

/-- `finished` has been set. -/
def MainPoint.ending : MainPoint → Bool
  | .stop _ | .join _ => true
  | _ => false

theorem MainPoint.stage_ending {m : MainPoint} {k t : ℕ} (h : m.stage k t ≠ .ending) :
    m.ending = false := by
  cases m <;> first | rfl | exact absurd rfl h

theorem MainPoint.of_ending {m : MainPoint} (h : m.ending = true) :
    (∀ k t, m.stage k t = .ending) ∧ (∀ t, ¬ m.has_given t) ∧ m.searching = false := by
  cases m <;> simp [MainPoint.ending] at h <;>
    simp [MainPoint.stage, MainPoint.has_given, MainPoint.searching]

theorem MainPoint.of_searching {m : MainPoint} (h : m.searching = true) : m.ending = false := by
  cases m <;> first | rfl | cases h

theorem MainPoint.searching_of_has_given {m : MainPoint} {t : ℕ} (h : m.has_given t) :
    m.searching = true := by
  cases m <;> first | rfl | exact absurd h id

/-- A round of one of the loops of `main` concerns one worker. -/
theorem MainPoint.stage_other {k i t : ℕ} (h : t ≠ i) :
    (MainPoint.reset_new (i + 1)).stage k t = (MainPoint.await_new i).stage k t ∧
      (MainPoint.reset (i + 1)).stage k t = (MainPoint.reset i).stage k t ∧
      (MainPoint.signal (i + 1)).stage k t = (MainPoint.signal i).stage k t ∧
      (MainPoint.check (i + 1)).stage k t = (MainPoint.check i).stage k t := by
  have hlt : t < i + 1 ↔ t < i := by omega
  simp [MainPoint.stage, hlt, h]

/-- Where a loop over the workers with arguments ends, the next one begins. -/
theorem MainPoint.stage_at_end {k i : ℕ} (h : ¬ i < k) (t : ℕ) :
    (MainPoint.reset i).stage k t = (MainPoint.signal 0).stage k t ∧
      (MainPoint.signal i).stage k t = (MainPoint.check 0).stage k t ∧
      (MainPoint.check i).stage k t = MainPoint.collect.stage k t := by
  by_cases ht : t < k
  · have hti : t < i := Nat.lt_of_lt_of_le ht (Nat.le_of_not_lt h)
    simp [MainPoint.stage, ht, hti]
  · simp [MainPoint.stage, ht]

structure HandshakeInv (sort : StdSort) (s : State) : Prop where
  each    : ∀ t, t < THREAD_NUM → worker_ok s.query (s.view t) (s.main.stage s.args.length t)
  length  : s.args.length ≤ THREAD_NUM
  given   : ∀ t, t < s.args.length → s.main.has_given t → s.thread_args t = s.args[t]?
  running : s.main.ending = false → s.finished = false
  search  : s.main.searching = true →
    ∃ word_id chars, s.root = .node word_id chars ∧ s.args = Project1.thread_args chars s.query
  output  : s.output = s.asked.map fun q => search_all_patterns q.1 q.2 sort (woken_workers q.1 q.2)

namespace HandshakeInv

variable {sort : StdSort} {s s' : State} {t i : ℕ}

theorem of_start : HandshakeInv sort .start where
  each := by
    intro t _
    simp [State.start, MainPoint.stage, worker_ok, State.view]
  length := Nat.zero_le _
  given := by
    intro t ht
    exact absurd ht (Nat.not_lt_zero t)
  running := fun _ => rfl
  search := by
    intro h
    cases h
  output := rfl

/-- A step inside of a query or outside of queries. -/
theorem of_change (h : HandshakeInv sort s) (hkeeps : Keeps s s')
    (hworkers : ∀ t, t < THREAD_NUM →
      worker_ok s.query (s'.view t) (s'.main.stage s.args.length t))
    (hgiven : ∀ t, t < s.args.length → s'.main.has_given t → s'.thread_args t = s.args[t]?)
    (hending : s'.main.ending = s.main.ending)
    (hsearch : s'.main.searching = true → s.main.searching = true) : HandshakeInv sort s' where
  each := by
    rw [hkeeps.query, hkeeps.args]
    exact hworkers
  length := by
    rw [hkeeps.args]
    exact h.length
  given := by
    rw [hkeeps.args]
    exact hgiven
  running := by
    rw [hkeeps.finished, hending]
    exact h.running
  search := by
    rw [hkeeps.root, hkeeps.args, hkeeps.query]
    exact fun hs => h.search (hsearch hs)
  output := by
    rw [hkeeps.output, hkeeps.asked]
    exact h.output

/-- A step that concerns worker `i` only. -/
theorem of_change_at (h : HandshakeInv sort s) (i : ℕ) (hkeeps : Keeps s s')
    (hview : ∀ t, t ≠ i → s'.view t = s.view t)
    (hstage : ∀ t, t ≠ i → s'.main.stage s.args.length t = s.main.stage s.args.length t)
    (hown : i < THREAD_NUM → worker_ok s.query (s.view i) (s.main.stage s.args.length i) →
      worker_ok s.query (s'.view i) (s'.main.stage s.args.length i))
    (hgiven : ∀ t, t < s.args.length → s'.main.has_given t → s'.thread_args t = s.args[t]?)
    (hending : s'.main.ending = s.main.ending)
    (hsearch : s'.main.searching = true → s.main.searching = true) : HandshakeInv sort s' := by
  refine h.of_change hkeeps ?_ hgiven hending hsearch
  intro t ht
  by_cases hti : t = i
  · subst hti
    exact hown ht (h.each t ht)
  · rw [hview t hti, hstage t hti]
    exact h.each t ht

theorem worker_step (h : HandshakeInv sort s) (hstep : s.worker_step t = some s') :
    HandshakeInv sort s' := by
  obtain ⟨hkeeps, hmain, hthread, hview⟩ := worker_step_frame hstep
  apply h.of_change_at t hkeeps hview
  · intro u _
    rw [hmain]
  · intro _ hok
    rw [hmain, ← hkeeps.query]
    exact hok.own_step (fun hst => h.running (MainPoint.stage_ending hst)) hstep
  · rw [hmain, hthread]
    exact h.given
  · rw [hmain]
  · rw [hmain]
    exact id

/-- `main` goes on, and nothing else changes. -/
theorem go (h : HandshakeInv sort s) {pt : MainPoint}
    (hstage : ∀ t, t < THREAD_NUM → worker_ok s.query (s.view t) (s.main.stage s.args.length t) →
      worker_ok s.query (s.view t) (pt.stage s.args.length t))
    (hgiven : ∀ t, t < s.args.length → pt.has_given t → s.main.has_given t)
    (hending : pt.ending = s.main.ending)
    (hsearch : pt.searching = true → s.main.searching = true) : HandshakeInv sort (s.go pt) :=
  h.of_change ⟨rfl, rfl, rfl, rfl, rfl, rfl⟩ (fun t ht => hstage t ht (h.each t ht))
    (fun t ht hpt => h.given t ht (hgiven t ht hpt)) hending hsearch

/-- One round of a loop over the workers, when all arguments are set. -/
theorem of_round (h : HandshakeInv sort s) (i : ℕ) (hkeeps : Keeps s s')
    (hgiven : ∀ t, s.main.has_given t) (hargs : s'.thread_args = s.thread_args)
    (hsearching : s'.main.searching = true) (hview : ∀ t, t ≠ i → s'.view t = s.view t)
    (hstage : ∀ t, t ≠ i → s'.main.stage s.args.length t = s.main.stage s.args.length t)
    (hown : worker_ok s.query (s.view i) (s.main.stage s.args.length i) →
      worker_ok s.query (s'.view i) (s'.main.stage s.args.length i)) : HandshakeInv sort s' := by
  have hsearch := MainPoint.searching_of_has_given (hgiven i)
  refine h.of_change_at i hkeeps hview hstage (fun _ => hown) ?_ ?_ (fun _ => hsearch)
  · intro t ht _
    rw [hargs]
    exact h.given t ht (hgiven t)
  · rw [MainPoint.of_searching hsearching, MainPoint.of_searching hsearch]

/-- `main` goes on inside of a query, when all arguments are set. -/
theorem go_on (h : HandshakeInv sort s) {pt : MainPoint} (hgiven : ∀ t, s.main.has_given t)
    (hsearching : pt.searching = true)
    (hstage : ∀ t, worker_ok s.query (s.view t) (s.main.stage s.args.length t) →
      worker_ok s.query (s.view t) (pt.stage s.args.length t)) : HandshakeInv sort (s.go pt) := by
  have hsearch := MainPoint.searching_of_has_given (hgiven 0)
  refine h.go (fun t _ => hstage t) (fun t _ _ => hgiven t) ?_ (fun _ => hsearch)
  rw [MainPoint.of_searching hsearching, MainPoint.of_searching hsearch]

/-- The loop that creates the threads. -/
theorem create_step (h : HandshakeInv sort s) (hstep : s.main_step sort = some s')
    (hm : s.main = .reset_new i ∨ s.main = .create i ∨ s.main = .await_new i) :
    HandshakeInv sort s' := by
  unfold State.main_step at hstep
  rcases hm with hm | hm | hm <;> simp only [hm] at hstep
  · split at hstep <;> cases hstep
    · refine h.of_change_at i ⟨rfl, rfl, rfl, rfl, rfl, rfl⟩ ?_ ?_ ?_ (fun t _ hg => absurd hg id)
        (by rw [hm]; rfl) (fun hs => by cases hs)
      · intro t ht
        simp [State.view, State.set_sleep, State.go, ht]
      · intro t ht
        simp [MainPoint.stage, State.go, hm, ht]
      · intro _ hok
        simp only [hm, MainPoint.stage, Nat.lt_irrefl, if_false, worker_ok] at hok
        simpa [MainPoint.stage, State.go, worker_ok, State.view, State.set_sleep] using hok
    · next hi =>
      -- All threads have been created.
      refine h.go ?_ (fun t _ hg => absurd hg id) (by rw [hm]; rfl) (fun hs => by cases hs)
      intro t ht hok
      simpa [hm, MainPoint.stage, Nat.lt_of_lt_of_le ht (Nat.le_of_not_lt hi)] using hok
  · cases hstep
    refine h.of_change_at i ⟨rfl, rfl, rfl, rfl, rfl, rfl⟩ ?_ ?_ ?_ (fun t _ hg => absurd hg id)
      (by rw [hm]; rfl) (fun hs => by cases hs)
    · intro t ht
      simp [State.view, State.set_worker, State.go, ht]
    · intro t ht
      simp [MainPoint.stage, State.go, hm, ht]
    · intro _ hok
      simp only [hm, MainPoint.stage, Nat.lt_irrefl, if_false, if_true, worker_ok] at hok
      simp only [MainPoint.stage, State.go, Nat.lt_irrefl, if_false, if_true, worker_ok]
      exact ⟨Function.update_self _ _ _, .inl ⟨.inl (Function.update_self _ _ _), hok.2⟩⟩
  · split at hstep <;> cases hstep
    · next hsleep =>
      refine h.go ?_ (fun t _ hg => absurd hg id) (by rw [hm]; rfl) (fun hs => by cases hs)
      intro t ht hok
      rw [hm] at hok
      by_cases hti : t = i
      · -- The new thread has set its flag, so it is on its way into the wait.
        subst hti
        simp only [MainPoint.stage, Nat.lt_irrefl, if_false, if_true, worker_ok] at hok
        simp only [MainPoint.stage, Nat.lt_succ_self, if_true, worker_ok]
        obtain ⟨hanswers, hcase⟩ := hok
        rcases hcase with ⟨-, hawake⟩ | hwait
        · exact absurd (hsleep.symm.trans hawake) (by decide)
        · exact ⟨hanswers, hwait⟩
      · rw [(MainPoint.stage_other hti).1]
        exact hok
    · exact h

/-- The loop that prepares the arguments. -/
theorem set_args_step (h : HandshakeInv sort s) (hstep : s.main_step sort = some s')
    (hm : s.main = .set_args i) : HandshakeInv sort s' := by
  have hgiven := h.given
  unfold State.main_step at hstep
  simp only [hm] at hstep hgiven
  split at hstep <;> cases hstep
  · next data hdata =>
    refine h.of_change_at i ⟨rfl, rfl, rfl, rfl, rfl, rfl⟩ ?_ ?_ ?_ ?_ (by rw [hm]; rfl)
      (fun _ => by rw [hm]; rfl)
    · intro t ht
      simp [State.view, State.set_args, ht]
    · intro t _
      simp [MainPoint.stage, State.set_args, hm]
    · intro _ hok
      simp only [hm, MainPoint.stage, worker_ok] at hok
      exact ⟨⟨Function.update_self _ _ _, hok.1.2⟩, hok.2⟩
    · intro t ht hg
      show Function.update s.thread_args i (some data) t = _
      by_cases hti : t = i
      · subst hti
        rw [Function.update_self, hdata]
      · rw [Function.update_of_ne hti]
        exact hgiven t ht (Nat.lt_of_le_of_ne (Nat.lt_succ_iff.mp hg) hti)
  · next hnone =>
    refine h.go ?_ ?_ (by rw [hm]; rfl) (fun _ => by rw [hm]; rfl)
    · intro t _ hok
      simpa [hm, MainPoint.stage] using hok
    · intro t ht _
      rw [hm]
      exact Nat.lt_of_lt_of_le ht (List.getElem?_eq_none_iff.mp hnone)

/-- The loop that resets the flags. -/
theorem reset_step (h : HandshakeInv sort s) (hstep : s.main_step sort = some s')
    (hm : s.main = .reset i) : HandshakeInv sort s' := by
  have hgiven : ∀ t, s.main.has_given t := by
    rw [hm]
    exact fun _ => trivial
  unfold State.main_step at hstep
  simp only [hm] at hstep
  split at hstep <;> cases hstep
  · next hi =>
    refine h.of_round i ⟨rfl, rfl, rfl, rfl, rfl, rfl⟩ hgiven rfl rfl ?_ ?_ ?_
    · intro t ht
      simp [State.view, State.set_sleep, State.go, ht]
    · intro t ht
      rw [hm]
      exact (MainPoint.stage_other ht).2.1
    · intro hok
      simp only [hm, MainPoint.stage, Nat.lt_irrefl, and_false, if_false, worker_ok] at hok
      simp only [MainPoint.stage, State.go, hi, Nat.lt_succ_self, and_self, if_true, worker_ok]
      exact ⟨hok.1, hok.2.1, Function.update_self _ _ _⟩
  · next hi =>
    refine h.go_on hgiven rfl ?_
    intro t hok
    rw [← (MainPoint.stage_at_end hi t).1, ← hm]
    exact hok

/-- The loop that signals the workers. -/
theorem signal_step (h : HandshakeInv sort s) (hstep : s.main_step sort = some s')
    (hm : s.main = .signal i) : HandshakeInv sort s' := by
  have hgiven : ∀ t, s.main.has_given t := by
    rw [hm]
    exact fun _ => trivial
  unfold State.main_step at hstep
  simp only [hm] at hstep
  split at hstep
  · next hi =>
    unfold State.wake at hstep
    split at hstep
    · next hfree =>
      cases hstep
      refine h.of_round i ⟨rfl, rfl, rfl, rfl, rfl, rfl⟩ hgiven rfl rfl ?_ ?_ ?_
      · intro t ht
        simp [State.view, State.set_worker, State.go, ht]
      · intro t ht
        rw [hm]
        exact (MainPoint.stage_other ht).2.2.1
      · intro hok
        simp only [hm, MainPoint.stage, hi, Nat.lt_irrefl, if_false, if_true, worker_ok] at hok
        simp only [MainPoint.stage, State.go, hi, Nat.lt_succ_self, if_true, worker_ok]
        obtain ⟨huntouched, hwait, hsleep⟩ := hok
        -- The mutex is free, so the worker is in the wait, and the signal reaches it.
        have hasleep : s.worker i = .asleep := by
          rcases hwait with hw | hw
          · change s.worker i = .enter_wait at hw
            rw [hw] at hfree
            cases hfree
          · exact hw
        refine .inl ⟨huntouched, .inl ?_, hsleep⟩
        simp [State.view, State.set_worker, hasleep, WorkerPoint.signal]
    · cases hstep
  · next hi =>
    cases hstep
    refine h.go_on hgiven rfl ?_
    intro t hok
    rw [← (MainPoint.stage_at_end hi t).2.1, ← hm]
    exact hok

/-- The loop that waits for the workers: `main` only goes on, and what changes is
    what it knows. -/
theorem check_step (h : HandshakeInv sort s) (hstep : s.main_step sort = some s')
    (hm : s.main = .check i) : HandshakeInv sort s' := by
  have hgiven : ∀ t, s.main.has_given t := by
    rw [hm]
    exact fun _ => trivial
  unfold State.main_step at hstep
  simp only [hm] at hstep
  split at hstep
  · next hi =>
    split at hstep <;> cases hstep
    · next hsleep =>
      refine h.go_on hgiven rfl ?_
      intro t hok
      rw [hm] at hok
      by_cases hti : t = i
      · subst hti
        simp only [MainPoint.stage, hi, Nat.lt_irrefl, if_false, if_true, worker_ok] at hok
        simp only [MainPoint.stage, hi, Nat.lt_succ_self, if_true, worker_ok]
        -- Its flag is true again only after its scan.
        rcases hok with ⟨-, -, hawake⟩ | ⟨-, -, hawake⟩ | hdone
        · exact absurd (hsleep.symm.trans hawake) (by decide)
        · exact absurd (hsleep.symm.trans hawake) (by decide)
        · exact hdone
      · rw [(MainPoint.stage_other hti).2.2.2]
        exact hok
    · -- `main` starts over, and forgets which workers it has found asleep.
      refine h.go_on hgiven rfl ?_
      intro t hok
      rw [hm] at hok
      by_cases ht : t < s.args.length
      · by_cases hti : t < i
        · simp only [MainPoint.stage, ht, hti, if_true, worker_ok] at hok
          simp only [MainPoint.stage, ht, Nat.not_lt_zero, if_true, if_false, worker_ok]
          exact .inr (.inr hok)
        · simpa [MainPoint.stage, ht, hti] using hok
      · simpa [MainPoint.stage, ht] using hok
  · next hi =>
    cases hstep
    refine h.go_on hgiven rfl ?_
    intro t hok
    rw [← (MainPoint.stage_at_end hi t).2.2, ← hm]
    exact hok

/-- The answers when `main` starts to move them. -/
theorem collected (h : HandshakeInv sort s) (hm : s.main = .collect) (ht : t < THREAD_NUM) :
    s.local_answers t = chunk_answers s.query s.args t := by
  have hok := h.each t ht
  unfold chunk_answers
  by_cases hk : t < s.args.length
  · simp only [hm, MainPoint.stage, hk, if_true, worker_ok] at hok
    have hgiven := h.given t hk (by rw [hm]; trivial)
    rw [← hgiven]
    exact hok.1.2
  · simp only [hm, MainPoint.stage, hk, if_false, worker_ok] at hok
    rw [List.getElem?_eq_none (Nat.le_of_not_lt hk)]
    exact hok.1.2

/-- What `main` prints is what `search_all_patterns` describes. -/
theorem printed (h : HandshakeInv sort s) (hm : s.main = .collect) :
    print_answers s.query (sort.run ((List.range THREAD_NUM).flatMap s.local_answers)) =
      search_all_patterns s.root s.query sort (woken_workers s.root s.query) := by
  obtain ⟨word_id, chars, hroot, hargs⟩ := h.search (by rw [hm]; rfl)
  rw [hroot]
  show _ = print_answers s.query (sort.run ((List.range THREAD_NUM).flatMap
    (run_workers s.query (Project1.thread_args chars s.query) (fun _ => [])
      (List.range (Project1.thread_args chars s.query).length))))
  rw [← hargs]
  congr 2
  apply List.flatMap_congr
  intro t ht
  rw [h.collected hm (List.mem_range.mp ht), run_workers_eq _ _ List.nodup_range]
  by_cases hk : t < s.args.length
  · simp [hk]
  · simp [hk, chunk_answers]

theorem print_step (h : HandshakeInv sort s) (hm : s.main = .collect) :
    HandshakeInv sort (s.print sort) where
  each := by
    intro t ht
    have hok := h.each t ht
    simp only [hm, MainPoint.stage] at hok
    refine ⟨rfl, ?_⟩
    by_cases hk : t < s.args.length
    · simp only [hk, if_true, worker_ok] at hok
      exact hok.2
    · simp only [hk, if_false, worker_ok] at hok
      exact hok.2
  length := h.length
  given := fun t _ hg => absurd hg id
  running := fun _ => h.running (by rw [hm]; rfl)
  search := fun hs => by cases hs
  output := by
    show s.output ++ [_] = (s.asked ++ [(s.root, s.query)]).map _
    rw [List.map_append, h.output, h.printed hm]
    rfl

/-- The end of the program. -/
theorem of_ending (h : HandshakeInv sort s) (hargs : s'.args = s.args)
    (hmain : s'.main.ending = true) (houtput : s'.output = s.output) (hasked : s'.asked = s.asked) :
    HandshakeInv sort s' := by
  obtain ⟨hstage, hgiven, hsearching⟩ := MainPoint.of_ending hmain
  refine ⟨?_, ?_, ?_, ?_, ?_, ?_⟩
  · intro t _
    rw [hstage]
    trivial
  · rw [hargs]
    exact h.length
  · exact fun t _ hg => absurd hg (hgiven t)
  · rw [hmain]
    exact fun hfalse => by cases hfalse
  · rw [hsearching]
    exact fun hfalse => by cases hfalse
  · rw [houtput, hasked]
    exact h.output

theorem end_step (h : HandshakeInv sort s) (hstep : s.main_step sort = some s')
    (hm : s.main = .stop i ∨ s.main = .join i) : HandshakeInv sort s' := by
  unfold State.main_step at hstep
  rcases hm with hm | hm <;> simp only [hm] at hstep
  · split at hstep
    · unfold State.wake at hstep
      split at hstep <;> cases hstep
      exact h.of_ending rfl rfl rfl rfl
    · cases hstep
      exact h.of_ending rfl rfl rfl rfl
  · split at hstep <;> cases hstep
    exact h.of_ending rfl rfl rfl rfl

theorem main_step (h : HandshakeInv sort s) (hstep : s.main_step sort = some s') :
    HandshakeInv sort s' := by
  cases hm : s.main with
  | reset_new i => exact h.create_step hstep (.inl hm)
  | create i => exact h.create_step hstep (.inr (.inl hm))
  | await_new i => exact h.create_step hstep (.inr (.inr hm))
  | command =>
    simp only [State.main_step, hm] at hstep
    cases hstep
  | set_args i => exact h.set_args_step hstep hm
  | reset i => exact h.reset_step hstep hm
  | signal i => exact h.signal_step hstep hm
  | check i => exact h.check_step hstep hm
  | collect =>
    simp only [State.main_step, hm] at hstep
    cases hstep
    exact h.print_step hm
  | stop i => exact h.end_step hstep (.inl hm)
  | join i => exact h.end_step hstep (.inr hm)

/-- A query comes. -/
theorem begin_query (h : HandshakeInv sort s) (hm : s.main = .command) (root : trie)
    (query : List Letter) : HandshakeInv sort (s.begin_query root query) := by
  unfold State.begin_query
  split
  · exact h
  · next word_id chars =>
    refine ⟨?_, prepare_args_length _ _ _ _ _, ?_, ?_, ?_, h.output⟩
    · intro t ht
      have hok := h.each t ht
      simp only [hm, MainPoint.stage, worker_ok] at hok
      exact ⟨⟨rfl, hok.1⟩, hok.2⟩
    · intro t _ hg
      exact absurd hg (Nat.not_lt_zero t)
    · exact fun _ => h.running (by rw [hm]; rfl)
    · exact fun _ => ⟨word_id, chars, rfl, rfl⟩

theorem step (h : HandshakeInv sort s) {l : Label} (hl : not_spurious s l = true)
    (hstep : (workers sort).step s l s') : HandshakeInv sort s' := by
  change s.perform sort l = some s' at hstep
  cases l with
  | main => exact h.main_step hstep
  | query root text =>
    simp only [State.perform] at hstep
    split at hstep
    · next hm =>
      cases hstep
      exact h.begin_query hm root text
    · cases hstep
  | eof =>
    simp only [State.perform] at hstep
    split at hstep <;> cases hstep
    exact h.of_ending rfl rfl rfl rfl
  | worker tid => exact h.worker_step hstep
  | spurious tid => cases hl

theorem reachable (h : Reachable ((workers sort).restrict fun s l => not_spurious s l = true) s) :
    HandshakeInv sort s := by
  apply h.invariant
  · intro s hinit
    change s = .start at hinit
    rw [hinit]
    exact of_start
  · intro s l s' _ hinv hstep
    exact hinv.step hstep.1 hstep.2

end HandshakeInv

/-! ## Section 4: Every chunk is scanned exactly once -/

/-- **The handshake.**  In every run without spurious wake-ups: when `main` starts
    to move the answers, every worker with arguments for the query has executed its
    scan loop over them exactly once since they were set, every other worker not at
    all, and no worker is in its scan loop. -/
theorem handshake_exactly_once {sort : StdSort} {s : State}
    (h : Reachable ((workers sort).restrict fun s l => not_spurious s l = true) s)
    (hcollect : s.main = .collect) :
    (∀ t, t < s.args.length → s.runs t = [s.args[t]?]) ∧
      (∀ t, s.args.length ≤ t → t < THREAD_NUM → s.runs t = []) ∧
      ∀ t, t < THREAD_NUM → ∀ data, s.worker t ≠ .scan data := by
  have hinv := HandshakeInv.reachable h
  have hworkers := hinv.each
  simp only [hcollect, MainPoint.stage] at hworkers
  refine ⟨?_, ?_, ?_⟩
  · intro t ht
    have hok := hworkers t (Nat.lt_of_lt_of_le ht hinv.length)
    rw [if_pos ht] at hok
    rw [← hinv.given t ht (by rw [hcollect]; trivial)]
    exact hok.1.1
  · intro t ht hN
    have hok := hworkers t hN
    rw [if_neg (Nat.not_lt.mpr ht)] at hok
    exact hok.1.1
  · intro t hN data hscan
    have hwait : (s.view t).in_wait := by
      have hok := hworkers t hN
      split at hok
      · exact hok.2.1
      · exact hok.2.1
    rcases hwait with hw | hw
    · exact absurd (hscan.symm.trans hw) (by simp)
    · exact absurd (hscan.symm.trans hw) (by simp)

/-- **The program prints what `search_all_patterns` describes**, in every run
    without spurious wake-ups: the outcome does not depend on the schedule. -/
theorem handshake_output {sort : StdSort} {s : State}
    (h : Reachable ((workers sort).restrict fun s l => not_spurious s l = true) s) :
    s.output = s.asked.map fun q => search_all_patterns q.1 q.2 sort (woken_workers q.1 q.2) :=
  (HandshakeInv.reachable h).output

/-- A property that is computed at the end of a run. -/
theorem exec_start (ok : State → Label → Bool) (ls : List Label) (P : State → Bool)
    (h : (exec (guarded ok fun s l => s.perform merge_std_sort l) .start ls).any P = true) :
    ∃ s, Reachable ((workers merge_std_sort).restrict fun s l => ok s l = true) s ∧ P s = true :=
  Reachable.exec_guarded (fun _ _ _ hl => hl) rfl ok ls P h

/-- The threads are created, and the query `a` comes while they are about to enter
    `pthread_cond_wait`. -/
def first_query : List Label :=
  List.flatten [
    (List.range THREAD_NUM).flatMap fun i => [.main, .main, .worker i, .worker i, .main],
    [.main, .query one_word.root [0]]]

/-- `main` wakes worker 0 for the query, and waits for it. -/
def answer_query : List Label :=
  List.flatten [
    List.replicate 4 .main, [.worker 0, .main, .main], List.replicate 7 (.worker 0),
    List.replicate 2 .main]

theorem exactly_once_first_query :
    ∃ s : State, s.main = .collect ∧ s.args.length = 1 ∧ s.runs 0 = [s.args[0]?] ∧
      ∀ data, s.worker 0 ≠ .scan data := by
  obtain ⟨s, hreach, hend⟩ := exec_start not_spurious (first_query ++ answer_query)
    (fun s => decide (s.main = .collect) && decide (s.args.length = 1)) (by decide +kernel)
  simp only [Bool.and_eq_true, decide_eq_true_eq] at hend
  obtain ⟨hcollect, hlength⟩ := hend
  obtain ⟨hgiven, -, hidle⟩ := handshake_exactly_once hreach hcollect
  exact ⟨s, hcollect, hlength, hgiven 0 (by omega), hidle 0 (by decide)⟩

/-- Worker 0 wakes up without a signal when its arguments have been set, scans them
    and goes back to sleep; then `main` goes on as usual. -/
def scan_twice : List Label :=
  List.flatten [
    [.main, .worker 0, .spurious 0], List.replicate 8 (.worker 0),
    List.replicate 5 .main, List.replicate 7 (.worker 0), List.replicate 2 .main]

/-- **A spurious wake-up** makes worker 0 scan its chunk twice for one query. -/
theorem chunk_scanned_twice :
    ∃ s : State, Reachable (workers merge_std_sort) s ∧ s.main = .collect ∧
      0 < s.args.length ∧ s.runs 0 ≠ [s.args[0]?] := by
  obtain ⟨s, hreach, hend⟩ := exec_start (fun _ _ => true) (first_query ++ scan_twice)
    (fun s => decide (s.main = .collect) && decide (0 < s.args.length) &&
      decide ((s.runs 0).length = 2)) (by decide +kernel)
  simp only [Bool.and_eq_true, decide_eq_true_eq] at hend
  obtain ⟨⟨hcollect, hlength⟩, htwice⟩ := hend
  refine ⟨s, hreach.of_restrict, hcollect, hlength, ?_⟩
  intro honce
  rw [honce] at htwice
  cases htwice

end Project1.Handshake
