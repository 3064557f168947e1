import GpuLibc.Lib.Machine
import GpuLibc.Uring.System

/-!
# Processing completions

`uring_process_completions` walks the completion ring from `*cring_head` to the tail it has loaded
and frees all slots with one store at the end, while the kernel keeps posting. The loop compares
wrapped counters with `!=` and finds a slot with a mask. Every call visits the completions that
were posted when it loaded the tail, each once and in order, and nothing is overwritten before.

* `reaping`: the kernel and one host thread that calls the routine again and again.
* `Reaping.Inv`: the wrapped counters, the slots and the phase of the call, against the lists of
  completions posted and visited.
* `Reaped.Served`: what a call has loaded and visited, against what was posted at that time.
* `reapedInOrder`: what a reader of the ring may rely on.
-/

namespace GpuLibc

open Counter

/-- The programs that contain a copy of the routine. -/
inductive Reaper
  | ioUringSvmCpuOnly
  | ioUringGpuNoPoll
  | ioUringCpuMt
deriving DecidableEq

/-- Only one copy reads the completion it visits; the others just advance the head. -/
def Reaper.prints : Reaper → Bool
  | .ioUringSvmCpuOnly => true
  | .ioUringGpuNoPoll | .ioUringCpuMt => false

/-- A completion ring of `2 ^ order` slots, whose size is a 32-bit number. -/
structure CqRing where
  order : ℕ
  order_le : order ≤ 31

namespace CqRing

/-- The number of slots. -/
def size (q : CqRing) : ℕ := 2 ^ q.order

/-- `*ctx->cring_mask`. -/
def cringMask (q : CqRing) : Word := BitVec.ofNat 32 (2 ^ q.order - 1)

/-- `head & *ctx->cring_mask`. -/
def slot (q : CqRing) (head : Word) : ℕ := (head &&& q.cringMask).toNat

theorem size_lt (q : CqRing) : q.size < 2 ^ 32 := by
  have hle : 2 ^ q.order ≤ 2 ^ 31 := Nat.pow_le_pow_right (by omega) q.order_le
  rw [size]
  omega

/-- Distinct positions inside one window of the ring have distinct slots. -/
theorem slot_ne (q : CqRing) (base : Word) {i m n : ℕ} (hi : n ≤ i) (hlt : i < m)
    (hm : m < n + q.size) : q.slot (after base i) ≠ q.slot (after base m) := by
  intro heq
  have hle : q.order ≤ 32 := q.order_le.trans (by omega)
  exact after_and_mask_ne (h := n) hle hi (hlt.trans hm) (hi.trans hlt.le) hm hlt.ne
    (BitVec.eq_of_toNat_eq heq)

end CqRing

/-- The next step of a call. The locals are those of the routine; `start` is the head it loaded
first, and `steps` counts the turns of the loop so far. -/
inductive ReaderPhase
  /-- No call in progress; a call loads `*cring_head`. -/
  | idle
  /-- Load `*cring_tail`. -/
  | loadTail (head : Word)
  /-- Test `head != tail`. In the printing copy a turn starts with the load of `user_data`. -/
  | loop (start head tail : Word) (steps : ℕ)
  /-- `idx` holds the cookie; load `res` and print both. -/
  | print (start head tail : Word) (steps userData : ℕ)
deriving DecidableEq

/-- A call that has returned: what it loaded and how often its loop turned. -/
structure Reaped where
  head : Word
  tail : Word
  steps : ℕ
  /-- How many completions had been posted when it loaded the tail. -/
  posted : ℕ
  /-- The completions that it has visited, in order. -/
  visited : List Cqe
deriving DecidableEq

/-- The completion ring, the call in progress, and what has happened so far. -/
structure Reaping where
  cringHead : Word
  cringTail : Word
  cqes : ℕ → Cqe
  reader : ReaderPhase
  /-- The completions posted so far, in order. -/
  posted : List Cqe
  /-- The completions visited by all calls so far, in order. -/
  visited : List Cqe
  /-- How many completions had been visited when the last call began. -/
  begun : ℕ
  /-- How many completions had been posted when the tail was loaded last. -/
  loaded : ℕ
  /-- The calls that have returned. -/
  calls : List Reaped
  /-- What has been printed to `stderr`. -/
  stderr : List String

inductive ReapingLabel
  /-- The kernel posts a completion. -/
  | post (c : Cqe)
  /-- The host thread makes its next step. -/
  | read
deriving DecidableEq

/-- `fprintf(stderr, "cqe idx=%u res=%d\n", idx, cqe->res)`; `idx` is an `unsigned`. -/
def cqeLine (userData : ℕ) (res : ℤ) : String :=
  "cqe idx=" ++ toString (BitVec.ofNat 32 userData).toNat ++ " res=" ++ toString res ++ "\n"

namespace Reaping

/-- The kernel posts at `cqes[tail & mask]` and advances the tail, while a slot is free. -/
def post (q : CqRing) (s : Reaping) (c : Cqe) : Option Reaping :=
  if (s.cringTail - s.cringHead).toNat < q.size then
    some { s with
      cqes := Function.update s.cqes (q.slot s.cringTail) c
      cringTail := s.cringTail + 1
      posted := s.posted ++ [c] }
  else none

/-- The next step of `uring_process_completions`. -/
def read (v : Reaper) (q : CqRing) (s : Reaping) : Reaping :=
  match s.reader with
  | .idle => { s with reader := .loadTail s.cringHead, begun := s.visited.length }
  | .loadTail head => { s with reader := .loop head head s.cringTail 0, loaded := s.posted.length }
  | .loop start head tail steps =>
    if head ≠ tail then
      let cqe := s.cqes (q.slot head)
      if v.prints then { s with reader := .print start head tail steps cqe.userData }
      else
        { s with
          reader := .loop start (head + 1) tail (steps + 1)
          visited := s.visited ++ [cqe] }
    else
      -- the store of the head frees all slots visited
      { s with
        cringHead := head
        reader := .idle
        calls := s.calls ++
          [{ head := start, tail, steps, posted := s.loaded, visited := s.visited.drop s.begun }] }
  | .print start head tail steps userData =>
    let res := (s.cqes (q.slot head)).res
    { s with
      reader := .loop start (head + 1) tail (steps + 1)
      visited := s.visited ++ [{ userData, res }]
      stderr := s.stderr ++ [cqeLine userData res] }

/-- A post needs a free slot, and extends the ring by one completion. -/
theorem post_eq_some {q : CqRing} {s s' : Reaping} {c : Cqe} (hs : s.post q c = some s') :
    (s.cringTail - s.cringHead).toNat < q.size ∧
      s' = { s with
        cqes := Function.update s.cqes (q.slot s.cringTail) c
        cringTail := s.cringTail + 1
        posted := s.posted ++ [c] } := by
  rw [post] at hs
  split at hs
  next hfree => exact ⟨hfree, (Option.some.inj hs).symm⟩
  next => cases hs

/-- The step function of kernel and host thread. -/
def step (v : Reaper) (q : CqRing) (s : Reaping) : ReapingLabel → Option Reaping
  | .post c => s.post q c
  | .read => some (s.read v q)

/-- An empty completion ring and no call; the counters may start at any value. -/
structure Initial (s : Reaping) : Prop where
  head : s.cringHead = s.cringTail
  reader : s.reader = .idle
  posted : s.posted = []
  visited : s.visited = []
  calls : s.calls = []
  stderr : s.stderr = []

end Reaping

/-- The kernel and a host thread with the copy `v` of the routine, on the ring `q`. -/
def reaping (v : Reaper) (q : CqRing) : Machine Reaping ReapingLabel where
  init := Reaping.Initial
  step s a := s.step v q a

/-! ## What holds along a run -/

/-- What the locals of a call say, when `n` slots have been freed by the calls before. -/
def ReaderPhase.Inv (base : Word) (posted visited : List Cqe) (begun loaded n : ℕ) :
    ReaderPhase → Prop
  | .idle => visited.length = n
  | .loadTail head => head = after base n ∧ visited.length = n ∧ begun = n
  | .loop start head tail steps => start = after base n ∧ begun = n ∧
      head = after base visited.length ∧ tail = after base loaded ∧
      visited.length = n + steps ∧ visited.length ≤ loaded ∧ loaded ≤ posted.length
  | .print start head tail steps userData => start = after base n ∧ begun = n ∧
      head = after base visited.length ∧ tail = after base loaded ∧
      visited.length = n + steps ∧ visited.length < loaded ∧ loaded ≤ posted.length ∧
      posted[visited.length]?.map Cqe.userData = some userData

/-- A post does not concern a call in progress: the tail it has loaded stays where it was. -/
theorem ReaderPhase.Inv.post {base : Word} {posted visited : List Cqe} {begun loaded n : ℕ}
    {phase : ReaderPhase} (h : phase.Inv base posted visited begun loaded n) (c : Cqe) :
    phase.Inv base (posted ++ [c]) visited begun loaded n := by
  have hlen : (posted ++ [c]).length = posted.length + 1 := by simp
  cases phase with
  | idle => exact h
  | loadTail head => exact h
  | loop start head tail steps =>
    obtain ⟨hstart, hbegun, hhead, htail, hsteps, hle, hloaded⟩ := h
    exact ⟨hstart, hbegun, hhead, htail, hsteps, hle, by omega⟩
  | print start head tail steps userData =>
    obtain ⟨hstart, hbegun, hhead, htail, hsteps, hlt, hloaded, hcookie⟩ := h
    refine ⟨hstart, hbegun, hhead, htail, hsteps, hlt, by omega, ?_⟩
    rw [List.getElem?_append_left (by omega), hcookie]

/-- A call that has returned, with what the calls in front of it have visited: its head stands
behind these completions and its tail behind all that were posted when it loaded it, it has turned
once for each completion between the two, and these are the ones it has visited. -/
structure Reaped.Served (base : Word) (posted before : List Cqe) (f : Reaped) : Prop where
  head : f.head = after base before.length
  tail : f.tail = after base f.posted
  posted_le : f.posted ≤ posted.length
  steps : f.steps = (f.tail - f.head).toNat
  visited : before ++ f.visited = posted.take f.posted
  length_visited : f.visited.length = f.steps

theorem Reaped.Served.post {base : Word} {posted before : List Cqe} {f : Reaped}
    (h : f.Served base posted before) (c : Cqe) : f.Served base (posted ++ [c]) before :=
  { head := h.head, tail := h.tail, posted_le := h.posted_le.trans (by simp), steps := h.steps,
    visited := by rw [List.take_append_of_le_length h.posted_le, h.visited],
    length_visited := h.length_visited }

/-- What the calls of the list have visited. -/
def visitedBy (calls : List Reaped) : List Cqe := calls.flatMap Reaped.visited

/-- The lines printed for the completions visited. -/
def Reaper.lines (v : Reaper) (visited : List Cqe) : List String :=
  if v.prints then visited.map fun c => cqeLine c.userData c.res else []

/-- The state of the completion ring after counters started at `base`, with `n` slots freed. -/
structure Reaping.Inv (v : Reaper) (q : CqRing) (base : Word) (s : Reaping) (n : ℕ) : Prop where
  head : s.cringHead = after base n
  tail : s.cringTail = after base s.posted.length
  freed_le : n ≤ s.visited.length
  visited_le : s.visited.length ≤ s.posted.length
  room : s.posted.length ≤ n + q.size
  log : s.visited = s.posted.take s.visited.length
  slots : ∀ i c, s.posted[i]? = some c → n ≤ i → s.cqes (q.slot (after base i)) = c
  phase : s.reader.Inv base s.posted s.visited s.begun s.loaded n
  prints : ∀ start head tail steps userData,
    s.reader = .print start head tail steps userData → v.prints = true
  calls : ∀ k (f : Reaped), s.calls[k]? = some f →
    f.Served base s.posted (visitedBy (s.calls.take k))
  freed : visitedBy s.calls = s.visited.take n
  last : ∀ f, s.calls.getLast? = some f → s.cringHead = f.tail
  stderr : s.stderr = v.lines s.visited

namespace Reaping.Inv

variable {v : Reaper} {q : CqRing} {base : Word} {s s' : Reaping} {n : ℕ}

theorem of_init (h : s.Initial) : Inv v q s.cringTail s 0 where
  head := by rw [h.head, after_zero]
  tail := by rw [h.posted, List.length_nil, after_zero]
  freed_le := Nat.zero_le _
  visited_le := by rw [h.visited, List.length_nil]; exact Nat.zero_le _
  room := by rw [h.posted, List.length_nil]; exact Nat.zero_le _
  log := by simp [h.visited]
  slots := by simp [h.posted]
  phase := by rw [h.reader]; simp [ReaderPhase.Inv, h.visited]
  prints := by simp [h.reader]
  calls := by simp [h.calls]
  freed := by simp [h.calls, visitedBy]
  last := by simp [h.calls]
  stderr := by simp [h.stderr, h.visited, Reaper.lines]

/-- While a slot is free, fewer than `size` completions are posted and not freed. -/
theorem lt_of_post (h : Inv v q base s n) (hfree : (s.cringTail - s.cringHead).toNat < q.size) :
    s.posted.length < n + q.size := by
  have hsize := q.size_lt
  have hle := h.freed_le.trans h.visited_le
  have hroom := h.room
  -- the distance of the two counters is the number of completions that are not freed
  rw [h.tail, h.head, toNat_after_sub hle (by omega)] at hfree
  omega

/-- A completion is posted behind the others. -/
theorem post (h : Inv v q base s n) {c : Cqe} (hs : s.post q c = some s') :
    Inv v q base s' n := by
  obtain ⟨hfree, rfl⟩ := Reaping.post_eq_some hs
  have hlt := h.lt_of_post hfree
  have hvisited := h.visited_le
  refine
    { head := h.head, tail := ?tail, freed_le := h.freed_le, visited_le := ?visited_le,
      room := ?room, log := ?log, slots := ?slots, phase := ?phase, prints := h.prints,
      calls := fun k f hf => (h.calls k f hf).post c, freed := h.freed, last := h.last,
      stderr := h.stderr }
  case tail => rw [h.tail, after_add_one, List.length_append, List.length_singleton]
  case visited_le => exact hvisited.trans (by simp)
  case room =>
    show (s.posted ++ [c]).length ≤ n + q.size
    rw [List.length_append, List.length_singleton]
    omega
  case log => rw [List.take_append_of_le_length hvisited]; exact h.log
  case slots =>
    intro i d hd hi
    dsimp only
    rw [h.tail]
    rcases getElem?_concat_cases hd with ⟨rfl, rfl⟩ | ⟨hilt, hd⟩
    · rw [Function.update_self]
    · rw [Function.update_of_ne (q.slot_ne base hi hilt hlt), h.slots i d hd hi]
  case phase => exact h.phase.post c

/-- The slot at the head of a call in progress holds the next completion to visit. -/
theorem exists_next (h : Inv v q base s n) (hlt : s.visited.length < s.posted.length) :
    ∃ c, s.posted[s.visited.length]? = some c ∧
      s.cqes (q.slot (after base s.visited.length)) = c := by
  have hc := List.getElem?_eq_getElem hlt
  exact ⟨_, hc, h.slots _ _ hc h.freed_le⟩

/-- Visiting the next completion extends the visited part of the log. -/
theorem log_visit (h : Inv v q base s n) {c : Cqe}
    (hc : s.posted[s.visited.length]? = some c) :
    s.visited ++ [c] = s.posted.take (s.visited ++ [c]).length := by
  rw [List.length_append, List.length_singleton, List.take_add_one, hc, ← h.log]
  rfl

/-- A turn of the loop that visits the completion `c`, whatever it prints. -/
theorem visit (h : Inv v q base s n) {start head tail : Word} {steps : ℕ} {c : Cqe}
    {lines : List String} (hc : s.posted[s.visited.length]? = some c)
    (hstart : start = after base n) (hbegun : s.begun = n)
    (hhead : head = after base s.visited.length) (htail : tail = after base s.loaded)
    (hsteps : s.visited.length = n + steps) (hlt : s.visited.length < s.loaded)
    (hloaded : s.loaded ≤ s.posted.length) (hlines : lines = v.lines (s.visited ++ [c])) :
    Inv v q base { s with
      reader := .loop start (head + 1) tail (steps + 1)
      visited := s.visited ++ [c]
      stderr := lines } n := by
  have hlen : (s.visited ++ [c]).length = s.visited.length + 1 := by simp
  refine
    { head := h.head, tail := h.tail, freed_le := ?freed_le, visited_le := ?visited_le,
      room := h.room, log := h.log_visit hc, slots := h.slots, phase := ?phase,
      prints := by simp, calls := h.calls, freed := ?freed, last := h.last, stderr := hlines }
  case freed =>
    rw [List.take_append_of_le_length h.freed_le]
    exact h.freed
  case freed_le => exact h.freed_le.trans (by simp)
  case visited_le =>
    show (s.visited ++ [c]).length ≤ s.posted.length
    omega
  case phase =>
    refine ⟨hstart, hbegun, ?_, htail, ?_, ?_, hloaded⟩
    · rw [hhead, after_add_one, hlen]
    · show (s.visited ++ [c]).length = n + (steps + 1)
      omega
    · show (s.visited ++ [c]).length ≤ s.loaded
      omega

/-- The calls that have returned and the one that ends have visited the whole log. -/
theorem visitedBy_append (h : Inv v q base s n) :
    visitedBy s.calls ++ s.visited.drop n = s.visited := by
  rw [h.freed]
  exact List.take_append_drop n s.visited

/-- The call that ends has visited what was posted when it loaded the tail. -/
theorem served (h : Inv v q base s n) {start tail : Word} {steps : ℕ}
    (hstart : start = after base n) (htail : tail = after base s.loaded)
    (hsteps : s.visited.length = n + steps) (hend : s.loaded = s.visited.length) :
    Reaped.Served base s.posted (visitedBy s.calls)
      { head := start, tail, steps, posted := s.loaded, visited := s.visited.drop n } := by
  have hfreed := h.freed_le
  have hvisited := h.visited_le
  have hroom := h.room
  have hsize := q.size_lt
  have hbefore : (visitedBy s.calls).length = n := by
    rw [h.freed, List.length_take, Nat.min_eq_left hfreed]
  refine
    { head := ?head, tail := htail, posted_le := ?posted_le, steps := ?steps, visited := ?visited,
      length_visited := ?length_visited }
  case head => rw [hbefore, hstart]
  case posted_le =>
    show s.loaded ≤ s.posted.length
    omega
  case steps =>
    -- the call has turned as often as its counters are apart
    show steps = (tail - start).toNat
    rw [htail, hstart, hend, toNat_after_sub hfreed (by omega)]
    omega
  case visited =>
    show visitedBy s.calls ++ s.visited.drop n = s.posted.take s.loaded
    rw [h.visitedBy_append, hend]
    exact h.log
  case length_visited =>
    show (s.visited.drop n).length = steps
    rw [List.length_drop]
    omega

/-- The end of a call: all slots visited are freed. -/
theorem store (h : Inv v q base s n) {start head tail : Word} {steps : ℕ}
    (hstart : start = after base n) (hbegun : s.begun = n)
    (hhead : head = after base s.visited.length) (htail : tail = after base s.loaded)
    (hsteps : s.visited.length = n + steps) (hend : s.loaded = s.visited.length) :
    Inv v q base { s with
      cringHead := head
      reader := .idle
      calls := s.calls ++
        [{ head := start, tail, steps, posted := s.loaded, visited := s.visited.drop s.begun }] }
      s.visited.length := by
  have hfreed := h.freed_le
  have hvisited := h.visited_le
  have hroom := h.room
  refine
    { head := hhead, tail := h.tail, freed_le := le_rfl, visited_le := hvisited,
      room := by dsimp only; omega, log := h.log, slots := ?slots, phase := rfl,
      prints := by simp, calls := ?calls, freed := ?freed, last := ?last, stderr := h.stderr }
  case slots => exact fun i c hc hi => h.slots i c hc (hfreed.trans hi)
  case calls =>
    intro k f hf
    dsimp only at hf ⊢
    rw [hbegun] at hf ⊢
    rcases getElem?_concat_cases hf with ⟨rfl, rfl⟩ | ⟨hlt, hf⟩
    · rw [List.take_left]
      exact h.served hstart htail hsteps hend
    · rw [List.take_append_of_le_length hlt.le]
      exact h.calls k f hf
  case freed =>
    dsimp only
    rw [hbegun, visitedBy, List.flatMap_append, List.flatMap_singleton, ← visitedBy,
      h.visitedBy_append, List.take_length]
  case last =>
    intro f hf
    rw [List.getLast?_concat, Option.some.injEq] at hf
    rw [← hf, hhead, htail, hend]

/-- A step that only moves the call on. -/
theorem of_reader (h : Inv v q base s n) {phase : ReaderPhase} {begun loaded : ℕ}
    (hphase : phase.Inv base s.posted s.visited begun loaded n)
    (hprints : ∀ start head tail steps userData,
      phase = .print start head tail steps userData → v.prints = true) :
    Inv v q base { s with reader := phase, begun, loaded } n :=
  { head := h.head, tail := h.tail, freed_le := h.freed_le, visited_le := h.visited_le,
    room := h.room, log := h.log, slots := h.slots, phase := hphase, prints := hprints,
    calls := h.calls, freed := h.freed, last := h.last, stderr := h.stderr }

/-- One turn of the loop, or its end. -/
theorem loop (h : Inv v q base s n) {start head tail : Word} {steps : ℕ}
    (hreader : s.reader = .loop start head tail steps) : ∃ m, Inv v q base (s.read v q) m := by
  have hphase := h.phase
  rw [hreader] at hphase
  obtain ⟨hstart, hbegun, hhead, htail, hsteps, hle, hloaded⟩ := hphase
  have hroom := h.room
  have hfreed := h.freed_le
  have hsize := q.size_lt
  by_cases hne : head ≠ tail
  · have hlt : s.visited.length < s.loaded := by
      refine lt_of_le_of_ne hle fun heq => hne ?_
      rw [hhead, htail, heq]
    obtain ⟨c, hc, hslot⟩ := h.exists_next (by omega)
    rw [← hhead] at hslot
    refine ⟨n, ?_⟩
    rw [Reaping.read, hreader]
    by_cases hprints : v.prints = true
    · -- the printing copy loads the cookie first
      simp only [if_pos hne, if_pos hprints]
      refine h.of_reader ⟨hstart, hbegun, hhead, htail, hsteps, hlt, hloaded, ?_⟩
        fun _ _ _ _ _ _ => hprints
      rw [hc, hslot, Option.map_some]
    · simp only [if_pos hne, if_neg hprints, hslot]
      -- the other copies visit it in the same step
      refine h.visit hc hstart hbegun hhead htail hsteps hlt hloaded ?_
      rw [h.stderr, Reaper.lines, Reaper.lines, if_neg hprints, if_neg hprints]
  · obtain rfl : head = tail := not_not.mp hne
    have hend : s.loaded = s.visited.length := by
      -- less than `2 ^ 32` completions were left
      rw [hhead] at htail
      exact after_injective_of_lt hle (by omega) htail.symm
    refine ⟨s.visited.length, ?_⟩
    rw [Reaping.read, hreader]
    simp only [ne_eq, not_true_eq_false, if_false]
    exact h.store hstart hbegun hhead htail hsteps hend

/-- The second half of a turn of the printing copy: the slot still holds the same completion. -/
theorem print (h : Inv v q base s n) {start head tail : Word} {steps userData : ℕ}
    (hreader : s.reader = .print start head tail steps userData) :
    Inv v q base (s.read v q) n := by
  have hphase := h.phase
  rw [hreader] at hphase
  obtain ⟨hstart, hbegun, hhead, htail, hsteps, hlt, hloaded, hcookie⟩ := hphase
  obtain ⟨c, hc, hslot⟩ := h.exists_next (by omega)
  rw [← hhead] at hslot
  rw [hc, Option.map_some, Option.some.injEq] at hcookie
  -- the cookie was loaded before, the result is loaded now, both from this completion
  have hvisit : ({ userData, res := (s.cqes (q.slot head)).res } : Cqe) = c := by
    rw [hslot, ← hcookie]
  rw [Reaping.read, hreader]
  simp only [hvisit]
  refine h.visit hc hstart hbegun hhead htail hsteps hlt hloaded ?_
  have hprints := h.prints _ _ _ _ _ hreader
  rw [h.stderr, Reaper.lines, Reaper.lines, if_pos hprints, if_pos hprints, List.map_append,
    hslot, ← hcookie]
  rfl

theorem read (h : Inv v q base s n) : ∃ m, Inv v q base (s.read v q) m := by
  have hphase := h.phase
  cases hreader : s.reader with
  | idle =>
    rw [hreader] at hphase
    refine ⟨n, ?_⟩
    rw [Reaping.read, hreader]
    exact h.of_reader ⟨h.head, hphase, hphase⟩ (by simp)
  | loadTail head =>
    rw [hreader] at hphase
    obtain ⟨hhead, hlen, hbegun⟩ := hphase
    refine ⟨n, ?_⟩
    rw [Reaping.read, hreader]
    refine h.of_reader ⟨hhead, hbegun, ?_, h.tail, ?_, h.visited_le, le_rfl⟩ (by simp)
    · rw [hhead, hlen]
    · omega
  | loop start head tail steps => exact h.loop hreader
  | print start head tail steps userData => exact ⟨n, h.print hreader⟩

theorem step (h : Inv v q base s n) {a : ReapingLabel}
    (hs : (reaping v q).step s a = some s') : ∃ m, Inv v q base s' m := by
  cases a with
  | post c => exact ⟨n, h.post hs⟩
  | read =>
    obtain rfl := Option.some.inj hs
    exact h.read

end Reaping.Inv

theorem reaping_inv {v : Reaper} {q : CqRing} {s₀ s : Reaping} {as : List ReapingLabel}
    (h : (reaping v q).Runs (fun _ _ => True) s₀ as s) :
    ∃ n, Reaping.Inv v q s₀.cringTail s n :=
  h.invariant (I := fun s => ∃ n, Reaping.Inv v q s₀.cringTail s n)
    (fun hinit => ⟨0, .of_init hinit⟩) fun _ _ _ ⟨_, hinv⟩ _ hs => hinv.step hs

/-! ## The end of a call -/

/-- A bound on the steps that are left to the call in progress. -/
def Reaping.stepsLeft (q : CqRing) (s : Reaping) : ℕ :=
  match s.reader with
  | .idle => 0
  | .loadTail _ => 2 * q.size + 2
  | .loop _ head tail _ => 2 * (tail - head).toNat + 1
  | .print _ head tail _ _ => 2 * (tail - head).toNat

namespace Reaping.Inv

variable {v : Reaper} {q : CqRing} {base : Word} {s s' : Reaping} {n : ℕ}

/-- At most `size` completions are posted and not freed. -/
theorem toNat_tail_sub_head_le (h : Inv v q base s n) :
    (s.cringTail - s.cringHead).toNat ≤ q.size := by
  have hsize := q.size_lt
  have hle := h.freed_le.trans h.visited_le
  have hroom := h.room
  rw [h.tail, h.head, toNat_after_sub hle (by omega)]
  omega

/-- In the middle of a turn the head has not reached the tail. -/
theorem head_ne_tail (h : Inv v q base s n) {start head tail : Word} {steps userData : ℕ}
    (hreader : s.reader = .print start head tail steps userData) : head ≠ tail := by
  have hphase := h.phase
  rw [hreader] at hphase
  obtain ⟨-, -, hhead, htail, -, hlt, hloaded, -⟩ := hphase
  have hroom := h.room
  have hfreed := h.freed_le
  have hsize := q.size_lt
  intro heq
  rw [hhead, htail] at heq
  have hend := after_injective_of_lt hlt.le (by omega) heq.symm
  omega

theorem stepsLeft_pos (h : Inv v q base s n) (hreader : s.reader ≠ .idle) :
    0 < s.stepsLeft q := by
  cases hr : s.reader with
  | idle => exact absurd hr hreader
  | loadTail head => simp [stepsLeft, hr]
  | loop start head tail steps => simp [stepsLeft, hr]
  | print start head tail steps userData =>
    have hstep := toNat_sub_add_one (h.head_ne_tail hr)
    simp only [stepsLeft, hr]
    omega

/-- Every step of a call in progress brings it closer to its end. -/
theorem stepsLeft_read (h : Inv v q base s n) (hreader : s.reader ≠ .idle) :
    (s.read v q).stepsLeft q < s.stepsLeft q := by
  cases hr : s.reader with
  | idle => exact absurd hr hreader
  | loadTail head =>
    have hphase := h.phase
    rw [hr] at hphase
    have hle := h.toNat_tail_sub_head_le
    rw [h.head, ← hphase.1] at hle
    simp only [stepsLeft, Reaping.read, hr]
    omega
  | loop start head tail steps =>
    by_cases hne : head ≠ tail
    · have hstep := toNat_sub_add_one hne
      -- a turn takes one step, or two with the print
      by_cases hprints : v.prints = true <;>
        simp only [stepsLeft, Reaping.read, hr, if_pos hne, hprints, if_true, if_false,
          Bool.false_eq_true] <;> omega
    · simp [stepsLeft, Reaping.read, hr, hne]
  | print start head tail steps userData =>
    have hstep := toNat_sub_add_one (h.head_ne_tail hr)
    simp only [stepsLeft, Reaping.read, hr]
    omega

end Reaping.Inv

/-- A step of a call in progress that ends it adds it to the calls that have returned. -/
theorem Reaping.calls_read (v : Reaper) (q : CqRing) {s : Reaping} (hreader : s.reader ≠ .idle) :
    (s.read v q).reader = .idle ∧ (s.read v q).calls.length = s.calls.length + 1 ∨
      (s.read v q).reader ≠ .idle ∧ (s.read v q).calls.length = s.calls.length := by
  cases hr : s.reader with
  | idle => exact absurd hr hreader
  | loadTail head => simp [Reaping.read, hr]
  | loop start head tail steps =>
    by_cases hne : head ≠ tail
    · by_cases hprints : v.prints = true <;> simp [Reaping.read, hr, hne, hprints]
    · simp [Reaping.read, hr, hne]
  | print start head tail steps userData => simp [Reaping.read, hr]

/-- A post touches neither a call in progress nor the record of those that have returned. -/
theorem Reaping.reader_post {q : CqRing} {s s' : Reaping} {c : Cqe} (hs : s.post q c = some s') :
    s'.reader = s.reader ∧ s'.calls = s.calls := by
  obtain ⟨-, rfl⟩ := Reaping.post_eq_some hs
  exact ⟨rfl, rfl⟩

/-- Calls that have returned stay on record. -/
theorem Reaping.calls_le_of_run {v : Reaper} {q : CqRing} {s s' : Reaping}
    {bs : List ReapingLabel} (hrun : (reaping v q).run s bs = some s') :
    s.calls.length ≤ s'.calls.length := by
  induction bs generalizing s with
  | nil => simp_all
  | cons b bs ih =>
    obtain ⟨t, hstep, hrest⟩ := Option.bind_eq_some_iff.mp hrun
    refine le_trans ?_ (ih hrest)
    cases b with
    | post c => rw [(Reaping.reader_post hstep).2]
    | read =>
      obtain rfl := Option.some.inj hstep
      -- a read starts a call, moves one on or ends one
      by_cases hidle : s.reader = .idle
      · simp [Reaping.read, hidle]
      · rcases Reaping.calls_read v q hidle with ⟨-, hlen⟩ | ⟨-, hlen⟩ <;> omega

/-- The call in progress returns after a bounded number of its own steps, whatever the kernel
posts in between. -/
theorem Reaping.Inv.returns {v : Reaper} {q : CqRing} {base : Word} {s s' : Reaping} {n : ℕ}
    {bs : List ReapingLabel} (h : Inv v q base s n) (hreader : s.reader ≠ .idle)
    (hrun : (reaping v q).run s bs = some s') (hcount : s.stepsLeft q ≤ bs.count .read) :
    s.calls.length < s'.calls.length := by
  -- along the steps; posts do not count, and a read brings the end closer
  induction bs generalizing s n with
  | nil =>
    have hpos := h.stepsLeft_pos hreader
    rw [List.count_nil] at hcount
    omega
  | cons b bs ih =>
    obtain ⟨t, hstep, hrest⟩ := Option.bind_eq_some_iff.mp hrun
    cases b with
    | post c =>
      have hsame := Reaping.reader_post hstep
      have hleft : t.stepsLeft q = s.stepsLeft q := by rw [stepsLeft, stepsLeft, hsame.1]
      rw [← hsame.2]
      refine ih (h.post hstep) (hsame.1 ▸ hreader) hrest ?_
      rwa [hleft, ← List.count_cons_of_ne (by simp : ReapingLabel.post c ≠ .read)]
    | read =>
      obtain rfl := Option.some.inj hstep
      rcases Reaping.calls_read v q hreader with ⟨-, hlen⟩ | ⟨hgoes, hlen⟩
      · have hle := Reaping.calls_le_of_run hrest
        omega
      · obtain ⟨m, hnext⟩ := h.read
        have hless := h.stepsLeft_read hreader
        rw [List.count_cons_self] at hcount
        have hreturns := ih hnext hgoes hrest (by omega)
        omega

/-- A call in progress has at most two steps left for each slot, and two more. -/
theorem Reaping.Inv.stepsLeft_le {v : Reaper} {q : CqRing} {base : Word} {s : Reaping} {n : ℕ}
    (h : Inv v q base s n) : s.stepsLeft q ≤ 2 * q.size + 2 := by
  have hphase := h.phase
  have hroom := h.room
  have hfreed := h.freed_le
  have hsize := q.size_lt
  cases hr : s.reader with
  | idle => simp [stepsLeft, hr]
  | loadTail head => simp [stepsLeft, hr]
  | loop start head tail steps =>
    rw [hr] at hphase
    obtain ⟨-, -, hhead, htail, -, hle, hloaded⟩ := hphase
    have hdist : (tail - head).toNat = s.loaded - s.visited.length := by
      rw [htail, hhead, toNat_after_sub hle (by omega)]
    simp only [stepsLeft, hr]
    omega
  | print start head tail steps userData =>
    rw [hr] at hphase
    obtain ⟨-, -, hhead, htail, -, hlt, hloaded, -⟩ := hphase
    have hdist : (tail - head).toNat = s.loaded - s.visited.length := by
      rw [htail, hhead, toNat_after_sub hlt.le (by omega)]
    simp only [stepsLeft, hr]
    omega

/-- Whether a call is in progress or not, after a bounded number of steps of the host thread one has
returned. -/
theorem Reaping.Inv.returns_of_count {v : Reaper} {q : CqRing} {base : Word} {s s' : Reaping}
    {n : ℕ} {bs : List ReapingLabel} (h : Inv v q base s n)
    (hrun : (reaping v q).run s bs = some s') (hcount : 2 * q.size + 3 ≤ bs.count .read) :
    s.calls.length < s'.calls.length := by
  have hle := h.stepsLeft_le
  by_cases hreader : s.reader = .idle
  · -- along the steps up to the one that begins a call
    induction bs generalizing s n with
    | nil => simp at hcount
    | cons b bs ih =>
      obtain ⟨t, hstep, hrest⟩ := Option.bind_eq_some_iff.mp hrun
      cases b with
      | post c =>
        obtain ⟨hsame, hcalls⟩ := Reaping.reader_post hstep
        have hnext := h.post hstep
        rw [← hcalls]
        refine ih hnext hrest ?_ hnext.stepsLeft_le (hsame.trans hreader)
        rwa [← List.count_cons_of_ne (by simp : ReapingLabel.post c ≠ .read)]
      | read =>
        obtain rfl := Option.some.inj hstep
        obtain ⟨m, hnext⟩ := h.read
        have hbegins : (s.read v q).reader ≠ .idle := by simp [Reaping.read, hreader]
        have hcalls : (s.read v q).calls = s.calls := by simp [Reaping.read, hreader]
        have hleft := hnext.stepsLeft_le
        rw [List.count_cons_self] at hcount
        rw [← hcalls]
        exact hnext.returns hbegins hrest (by omega)
  · exact h.returns hreader hrun (by omega)

/-! ## Reaping in order -/

/-- What a reader of the completion ring may rely on, when the counters started at `base`. -/
structure ReapedInOrder (v : Reaper) (q : CqRing) (base : Word) (s : Reaping) : Prop where
  /-- The completions visited are the first ones posted: none twice, none skipped. -/
  visited : s.visited <+: s.posted
  /-- A completion that is not visited stands in the slot in which it was posted. -/
  intact : ∀ i c, s.posted[i]? = some c → s.visited.length ≤ i →
    s.cqes (q.slot (after base i)) = c
  /-- The tail stands behind the completions posted. -/
  tail : s.cringTail = after base s.posted.length
  /-- A call turns as often as the tail is ahead of the head, in wrapped arithmetic. -/
  steps : ∀ f ∈ s.calls, f.steps = (f.tail - f.head).toNat
  /-- A call that has returned turned once for each completion that it visited. These are the ones
  posted before it loaded the tail and not visited by the calls in front of it. Its head stands
  behind the completions of those calls, its tail behind all that were posted. -/
  served : ∀ k (f : Reaped), s.calls[k]? = some f →
    f.Served base s.posted (visitedBy (s.calls.take k))
  /-- The calls that have returned have visited nothing else, in this order. -/
  returned : visitedBy s.calls <+: s.visited
  /-- The head is the tail that the last call read. -/
  stored : ∀ f, s.calls.getLast? = some f → s.cringHead = f.tail
  /-- The printing copy has printed the completions visited, the others nothing. -/
  stderr : s.stderr = v.lines s.visited
  /-- A call returns after a bounded number of steps of the host thread, which are always enabled,
  whatever is posted in between, and whether one is in progress now or begins later. -/
  returns : ∀ (bs : List ReapingLabel) (s' : Reaping), (reaping v q).run s bs = some s' →
    2 * q.size + 3 ≤ bs.count .read → s.calls.length < s'.calls.length

/-- In every copy of the routine, on every ring and from any counters: however posts and calls
alternate, the completions are reaped exactly once and in order. -/
theorem reapedInOrder {v : Reaper} {q : CqRing} {s₀ s : Reaping} {as : List ReapingLabel}
    (h : (reaping v q).Runs (fun _ _ => True) s₀ as s) : ReapedInOrder v q s₀.cringTail s := by
  obtain ⟨n, hinv⟩ := reaping_inv h
  refine
    { visited := ?visited, intact := ?intact, tail := hinv.tail, steps := ?steps,
      served := hinv.calls, returned := ?returned, stored := hinv.last, stderr := hinv.stderr,
      returns := fun _ _ hrun hcount => hinv.returns_of_count hrun hcount }
  case visited =>
    rw [hinv.log]
    exact List.take_prefix ..
  case intact => exact fun i c hc hi => hinv.slots i c hc (hinv.freed_le.trans hi)
  case steps =>
    intro f hf
    obtain ⟨k, hk⟩ := List.mem_iff_getElem?.mp hf
    exact (hinv.calls k f hk).steps
  case returned =>
    rw [hinv.freed]
    exact List.take_prefix ..

/-- An empty completion ring one increment before the counters wrap. -/
def aboutToWrap : Reaping :=
  { cringHead := -1
    cringTail := -1
    cqes := fun _ => { userData := 0, res := 0 }
    reader := .idle
    posted := []
    visited := []
    begun := 0
    loaded := 0
    calls := []
    stderr := [] }

theorem initial_aboutToWrap : aboutToWrap.Initial := ⟨rfl, rfl, rfl, rfl, rfl, rfl⟩

/-- A completion that arrives during a call is left to the next one. -/
def lateCompletion : List ReapingLabel :=
  [.post ⟨0, 24⟩, .post ⟨1, 44⟩, .read, .read, .post ⟨2, 36⟩] ++ List.replicate 5 .read ++
    [.read, .read, .read]

/-- The call has visited two completions across the wrap, and its tail is not the one at its end. -/
theorem reapedInOrder_lateCompletion :
    ∃ s, (reaping .ioUringSvmCpuOnly ⟨2, by decide⟩).Runs (fun _ _ => True) aboutToWrap
        lateCompletion s ∧
      ReapedInOrder .ioUringSvmCpuOnly ⟨2, by decide⟩ (-1) s ∧
      s.calls = [{ head := -1, tail := 1, steps := 2, posted := 2,
                   visited := [⟨0, 24⟩, ⟨1, 44⟩] }] ∧
      s.cringTail = 2 ∧ s.visited.length = 2 ∧ s.posted.length = 3 := by
  have hrun : (reaping .ioUringSvmCpuOnly ⟨2, by decide⟩).Runs (fun _ _ => True) aboutToWrap
      lateCompletion _ := .of_runUnder initial_aboutToWrap (by decide +kernel)
  exact ⟨_, hrun, reapedInOrder hrun, by decide +kernel, by decide +kernel, by decide +kernel,
    by decide +kernel⟩

end GpuLibc
