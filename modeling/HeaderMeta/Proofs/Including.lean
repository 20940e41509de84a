import HeaderMeta.HeaderTree
import HeaderMeta.Proofs.Including.Routes
import Mathlib.Logic.Relation

/-! Following includes reads the reachable headers, each of them once.

One round takes a header off the queue and reads it. What holds between rounds (`Progressed`): the
headers read and the headers queued are distinct and reachable, the requested ones come first, and
what a header read includes has been queued. The queue runs dry because the files of a volume without
links have finitely many normal forms.
-/

set_option autoImplicit false

namespace HeaderMeta

namespace Reading
variable {v : Volume} {request : HeaderRequest}

section Closure

/-- The header at `p` can be read, and an include of it stands for `q`. -/
def Includes (v : Volume) (request : HeaderRequest) (p q : Path) : Prop :=
  request.followIncludes = true ∧ ∃ text, v.readText p = .ok text ∧
    ∃ i ∈ (Header.read ⟨p, text⟩).includes, target? v request p i = some q

/-- A requested header, or one that headers which can be read lead to. -/
def Reachable (v : Volume) (request : HeaderRequest) (p : Path) : Prop :=
  ∃ file ∈ request.files, Relation.ReflTransGen (Includes v request) file.normalize p

def Readable (v : Volume) (p : Path) : Prop :=
  ∃ text, v.readText p = .ok text

/-- The header cannot be read or has an error of its own. -/
def Faulty (v : Volume) (p : Path) : Prop :=
  ¬ Readable v p ∨ ∃ text, v.readText p = .ok text ∧
    ∃ d ∈ (Header.read ⟨p, text⟩).diagnostics, d.isError = true

/-- The requested headers by the paths they go by, each at its first place. -/
def requested (request : HeaderRequest) : List Path :=
  (request.files.map Path.normalize).eraseDups

/-- Rounds from a reading until nothing is queued, with the paths read in order. -/
inductive Run (v : Volume) (request : HeaderRequest) : Reading → List Path → Reading → Prop where
  | done {r : Reading} (dry : r.queue = []) : Run v request r [] r
  | round {r final : Reading} {p : Pending} {queue : List Pending} {paths : List Path}
      (next : r.queue = p :: queue)
      (rest : Run v request (step v request p { r with queue }) paths final) :
      Run v request r (p.path :: paths) final

end Closure

section Rounds

structure Queued (added : List Path) (r s : Reading) : Prop where
  queue : s.queue = r.queue ++ added.map (Pending.mk · false)
  seen : s.seen = added.reverse ++ r.seen
  distinct : added.Nodup
  fresh : ∀ p ∈ added, p ∉ r.seen

theorem Queued.refl (r : Reading) : Queued [] r r :=
  ⟨by simp, rfl, List.nodup_nil, nofun⟩

theorem Queued.trans {added more : List Path} {r s t : Reading} (first : Queued added r s)
    (second : Queued more s t) : Queued (added ++ more) r t where
  queue := by rw [second.queue, first.queue, List.map_append, List.append_assoc]
  seen := by rw [second.seen, first.seen, List.reverse_append, List.append_assoc]
  distinct := by
    refine List.nodup_append.mpr ⟨first.distinct, second.distinct, ?_⟩
    rintro p old q new rfl
    exact second.fresh p new (by simp [first.seen, old])
  fresh p mem := by
    rcases List.mem_append.mp mem with old | new
    · exact first.fresh p old
    · exact fun seen => second.fresh p new (by simp [first.seen, seen])

theorem queued_follow (v : Volume) (request : HeaderRequest) (includer : Path) (r : Reading) (i : Include) :
    ∃ added, Queued added r (follow v request includer r i) ∧
      (∀ p ∈ added, target? v request includer i = some p) ∧
      ∀ p, target? v request includer i = some p → p ∈ added ∨ p ∈ r.seen := by
  unfold follow
  split
  next none => exact ⟨[], .refl r, nofun, fun p found => by simp [none] at found⟩
  next path found =>
    split
    next old =>
      refine ⟨[], .refl r, nofun, fun p same => .inr ?_⟩
      cases found.symm.trans same
      exact List.contains_iff_mem.mp old
    next new =>
      have unseen : path ∉ r.seen := fun old => new (List.contains_iff_mem.mpr old)
      refine ⟨[path], ⟨?_, ?_, List.nodup_singleton path, ?_⟩, ?_, fun p same => .inl ?_⟩
      · simp [enqueue, unseen]
      · simp [enqueue, unseen]
      · simpa using unseen
      · simpa using found
      · exact List.mem_singleton.mpr (Option.some.inj (same.symm.trans found))

theorem queued_foldl_follow (v : Volume) (request : HeaderRequest) (includer : Path)
    (is : List Include) (r : Reading) :
    ∃ added, Queued added r (is.foldl (follow v request includer) r) ∧
      (∀ p ∈ added, ∃ i ∈ is, target? v request includer i = some p) ∧
      ∀ i ∈ is, ∀ p, target? v request includer i = some p → p ∈ added ∨ p ∈ r.seen := by
  induction is generalizing r with
  | nil => exact ⟨[], .refl r, nofun, nofun⟩
  | cons i is ih =>
    obtain ⟨first, queued, known, all⟩ := queued_follow v request includer r i
    obtain ⟨more, queued', known', all'⟩ := ih (follow v request includer r i)
    refine ⟨first ++ more, queued.trans queued', fun p mem => ?_, fun j mem p found => ?_⟩
    · rcases List.mem_append.mp mem with own | later
      · exact ⟨i, List.mem_cons_self, known p own⟩
      · obtain ⟨j, inside, found⟩ := known' p later
        exact ⟨j, List.mem_cons_of_mem i inside, found⟩
    · rcases List.mem_cons.mp mem with rfl | later
      · exact (all p found).imp_left (List.mem_append_left more)
      · rcases all' j later p found with new | seen
        · exact .inl (List.mem_append_right first new)
        · rw [queued.seen] at seen
          exact (List.mem_append.mp seen).imp_left fun old =>
            List.mem_append_left more (List.mem_reverse.mp old)

theorem frame_foldl_follow (v : Volume) (request : HeaderRequest) (includer : Path)
    (is : List Include) (r : Reading) :
    (is.foldl (follow v request includer) r).sources = r.sources ∧
      (is.foldl (follow v request includer) r).diagnostics = r.diagnostics := by
  have one (r : Reading) (i : Include) : (follow v request includer r i).sources = r.sources ∧
      (follow v request includer r i).diagnostics = r.diagnostics := by
    unfold follow enqueue
    dsimp only
    split
    · exact ⟨rfl, rfl⟩
    · split
      · exact ⟨rfl, rfl⟩
      · exact ⟨rfl, rfl⟩
  induction is generalizing r with
  | nil => exact ⟨rfl, rfl⟩
  | cons i is ih =>
    obtain ⟨sources, diagnostics⟩ := ih (follow v request includer r i)
    exact ⟨sources.trans (one r i).1, diagnostics.trans (one r i).2⟩

def HasError (r : Reading) : Prop :=
  ∃ d ∈ r.diagnostics, d.isError = true

structure Took (v : Volume) (request : HeaderRequest) (p : Pending) (added : List Path)
    (r s : Reading) : Prop extends Queued added r s where
  included : ∀ q ∈ added, Includes v request p.path q
  complete : ∀ q, Includes v request p.path q → q ∈ added ∨ q ∈ r.seen
  sources : s.sources =
    r.sources ++ ((v.readText p.path).toOption.map (Source.mk p.path)).toList
  errors : s.HasError ↔ r.HasError ∨ p.requested = true ∧ Faulty v p.path

theorem isError_weigh (p : Pending) (d : Diagnostic) :
    (p.weigh d).isError = true ↔ p.requested = true ∧ d.isError = true := by
  unfold Pending.weigh
  split
  next asked => simp [asked]
  next asked => simp [asked, Diagnostic.isError_downgrade]

theorem not_isError_duplicate (name : String) (path : Path) :
    (duplicate name path).isError = false := rfl

/-- The includes of a header that can be read, queued where includes are followed. -/
theorem exists_queued (request : HeaderRequest) {p : Path} {text : String}
    (read : v.readText p = .ok text) (r : Reading) :
    ∃ added s, Queued added r s ∧ s.sources = r.sources ∧ s.diagnostics = r.diagnostics ∧
      (∀ q ∈ added, Includes v request p q) ∧
      (∀ q, Includes v request p q → q ∈ added ∨ q ∈ r.seen) ∧
      (if request.followIncludes then
        (Header.read ⟨p, text⟩).includes.foldl (follow v request p) r else r) = s := by
  cases follows : request.followIncludes with
  | false => exact ⟨[], r, .refl r, rfl, rfl, nofun, fun q inc => by simp [inc.1] at follows, rfl⟩
  | true =>
    obtain ⟨added, queued, known, all⟩ := queued_foldl_follow v request p
      (Header.read ⟨p, text⟩).includes r
    obtain ⟨sources, diagnostics⟩ := frame_foldl_follow v request p
      (Header.read ⟨p, text⟩).includes r
    refine ⟨added, _, queued, sources, diagnostics, fun q mem => ?_, ?_, rfl⟩
    · exact ⟨follows, text, read, known q mem⟩
    · rintro q ⟨-, text', read', i, mem, found⟩
      cases read.symm.trans read'
      exact all i mem q found

theorem took_step (v : Volume) (request : HeaderRequest) (p : Pending) (r : Reading) :
    ∃ added, Took v request p added r (step v request p r) := by
  unfold step
  split
  next e failed =>
    have lost : ¬ Readable v p.path := by simp [Readable, failed]
    have nothing (q : Path) : ¬ Includes v request p.path q :=
      fun ⟨_, text, read, _⟩ => lost ⟨text, read⟩
    refine ⟨[], ⟨⟨by simp, rfl, List.nodup_nil, nofun⟩, nofun, fun q inc => absurd inc (nothing q),
      by simp [failed, Except.toOption], ?_⟩⟩
    have error : (unreadable p.path e).isError = true := rfl
    simp only [HasError, List.mem_append, List.mem_singleton, or_and_right, exists_or,
      exists_eq_left, isError_weigh, error, and_true, Faulty, lost, not_false_eq_true, true_or]
  next text read =>
    have faulty : Faulty v p.path ↔
        ∃ d ∈ (Header.read ⟨p.path, text⟩).diagnostics, d.isError = true := by
      simp [Faulty, Readable, read]
    unfold take
    dsimp only
    obtain ⟨added, s, queued, sources, diagnostics, included, complete, same⟩ :=
      exists_queued request read { r with
        diagnostics := r.diagnostics ++ (Header.read ⟨p.path, text⟩).diagnostics.map p.weigh
        log := r.log ++ [.trace ("Parsing " ++ p.path.text)] }
    rw [same]
    refine ⟨added, ⟨⟨queued.queue, queued.seen, queued.distinct, queued.fresh⟩, included, complete,
      ?_, ?_⟩⟩
    · rw [sources, read]
      rfl
    · rw [faulty]
      simp only [HasError, diagnostics, List.mem_append, List.mem_map, or_and_right, exists_or]
      -- of the three parts of the new diagnostics the last one holds no error
      have plain : ¬ ∃ d, (∃ m ∈ (s.root.merge (Header.read ⟨p.path, text⟩).root).2,
          duplicate m.1 m.2 = d) ∧ d.isError = true := by
        rintro ⟨_, ⟨m, -, rfl⟩, error⟩
        rw [not_isError_duplicate] at error
        cases error
      rw [or_iff_left plain]
      refine or_congr_right ⟨?_, ?_⟩
      · rintro ⟨_, ⟨d, mem, rfl⟩, error⟩
        obtain ⟨asked, error⟩ := (isError_weigh p d).mp error
        exact ⟨asked, d, mem, error⟩
      · rintro ⟨asked, d, mem, error⟩
        exact ⟨_, ⟨d, mem, rfl⟩, (isError_weigh p d).mpr ⟨asked, error⟩⟩

end Rounds

section Runs

/-- What holds when the headers `done` have been read. -/
structure Progressed (v : Volume) (request : HeaderRequest) (done : List Pending) (r : Reading) :
    Prop where
  order : ∃ included : List Path,
    done ++ r.queue = (requested request).map (Pending.mk · true) ++ included.map (Pending.mk · false) ∧
      ∀ p ∈ included, ∃ q, Includes v request q p
  distinct : ((done ++ r.queue).map Pending.path).Nodup
  seen : ∀ p, p ∈ r.seen ↔ p ∈ (done ++ r.queue).map Pending.path
  reachable : ∀ p ∈ done ++ r.queue, Reachable v request p.path
  closed : ∀ p ∈ done, ∀ q, Includes v request p.path q → q ∈ r.seen
  sources : r.sources =
    done.filterMap fun p => (v.readText p.path).toOption.map (Source.mk p.path)
  errors : r.HasError ↔ ∃ p ∈ done, p.requested = true ∧ Faulty v p.path

theorem Progressed.step {done queue : List Pending} {p : Pending} {r : Reading}
    (held : Progressed v request done r) (next : r.queue = p :: queue) :
    Progressed v request (done ++ [p]) (step v request p { r with queue }) := by
  obtain ⟨added, took⟩ := took_step v request p { r with queue }
  have split : done ++ [p] ++ (Reading.step v request p { r with queue }).queue =
      done ++ r.queue ++ added.map (Pending.mk · false) := by
    rw [took.queue, next]
    simp
  have paths : (added.map (Pending.mk · false)).map Pending.path = added := by
    simp [Function.comp_def]
  have here : p ∈ done ++ r.queue := by simp [next]
  have seen (q : Path) : q ∈ (Reading.step v request p { r with queue }).seen ↔
      q ∈ (done ++ r.queue ++ added.map (Pending.mk · false)).map Pending.path := by
    have parts : (done ++ r.queue ++ added.map (Pending.mk · false)).map Pending.path =
        (done ++ r.queue).map Pending.path ++ added := by
      rw [List.map_append, paths]
    rw [took.seen, List.mem_append, List.mem_reverse, held.seen q, or_comm, ← List.mem_append, parts]
  constructor
  -- what this round queues goes to the end, behind every requested header
  · obtain ⟨included, ordered, known⟩ := held.order
    refine ⟨included ++ added, ?_, fun q mem => ?_⟩
    · rw [split, ordered, List.map_append, List.append_assoc]
    · rcases List.mem_append.mp mem with old | new
      · exact known q old
      · exact ⟨p.path, took.included q new⟩
  -- it was not seen before, and what was seen is what was read or queued
  · rw [split, List.map_append, paths]
    refine List.nodup_append.mpr ⟨held.distinct, took.distinct, ?_⟩
    rintro q old q' new rfl
    exact took.fresh q new ((held.seen q).mpr old)
  · rw [split]
    exact seen
  · rw [split]
    intro q mem
    rcases List.mem_append.mp mem with old | new
    · exact held.reachable q old
    · obtain ⟨path, inside, rfl⟩ := List.mem_map.mp new
      obtain ⟨file, asked, way⟩ := held.reachable p here
      exact ⟨file, asked, way.tail (took.included path inside)⟩
  -- the includes of `p` join those of the headers read before it
  · intro q mem target inc
    rcases List.mem_append.mp mem with old | new
    · rw [took.seen]
      exact List.mem_append_right _ (held.closed q old target inc)
    · rw [took.seen, List.mem_append, List.mem_reverse]
      exact took.complete target (List.mem_singleton.mp new ▸ inc)
  · rw [took.sources, held.sources, List.filterMap_append]
    simp [List.filterMap_eq_flatMap_toList]
  · have before : ({ r with queue } : Reading).HasError ↔ r.HasError := Iff.rfl
    rw [took.errors, before, held.errors]
    simp [or_and_right, exists_or]

/-- The requested headers, queued in order. -/
theorem queue_start (files : List Path) :
    let r := files.foldl (fun r path => r.enqueue ⟨path.normalize, true⟩) ({} : Reading)
    r.queue = (files.map Path.normalize).eraseDups.map (Pending.mk · true) ∧
      (r.queue.map Pending.path).Nodup ∧
      (∀ p, p ∈ r.seen ↔ p ∈ r.queue.map Pending.path) ∧
      (∀ p, p ∈ r.seen ↔ p ∈ files.map Path.normalize) ∧ r.sources = [] ∧ r.diagnostics = [] := by
  induction files using List.reverseRecOn with
  | nil => exact ⟨rfl, List.nodup_nil, by simp, by simp, rfl, rfl⟩
  | append_singleton files file ih =>
    dsimp only at ih ⊢
    rw [List.foldl_append, List.foldl_cons, List.foldl_nil, List.map_append, List.map_singleton,
      List.eraseDups_append]
    generalize files.foldl (fun r path => r.enqueue ⟨path.normalize, true⟩) ({} : Reading) = r at ih ⊢
    generalize files.map Path.normalize = paths at ih ⊢
    generalize file.normalize = path
    obtain ⟨queue, distinct, queued, asked, sources, diagnostics⟩ := ih
    unfold enqueue
    -- a file that is asked for again is queued already
    by_cases old : path ∈ r.seen
    · have known := (asked path).mp old
      rw [if_pos (List.contains_iff_mem.mpr old)]
      refine ⟨?_, distinct, queued, fun p => ?_, sources, diagnostics⟩
      · simp [queue, List.removeAll, known]
      · rw [asked p, List.mem_append, List.mem_singleton]
        exact ⟨.inl, fun either => either.elim id (· ▸ known)⟩
    · have unknown := mt (asked path).mpr old
      rw [if_neg (mt List.contains_iff_mem.mp old)]
      refine ⟨?_, ?_, fun p => ?_, fun p => ?_, sources, diagnostics⟩
      · simp [queue, List.removeAll, unknown, List.eraseDups_cons]
      · rw [List.map_append, List.nodup_append]
        refine ⟨distinct, List.nodup_singleton _, ?_⟩
        rintro p before q last rfl
        cases List.mem_singleton.mp last
        exact old ((queued _).mpr before)
      · rw [List.mem_cons, queued p, List.map_append, List.mem_append, or_comm]
        simp
      · rw [List.mem_cons, asked p, List.mem_append, List.mem_singleton, or_comm]

theorem progressed_start (v : Volume) (request : HeaderRequest) :
    Progressed v request [] (start request) := by
  obtain ⟨queue, distinct, queued, asked, sources, diagnostics⟩ := queue_start request.files
  refine ⟨⟨[], ?_, nofun⟩, distinct, queued, fun p mem => ?_, nofun, sources, ?_⟩
  · simpa [start, requested] using queue
  · have file := (asked p.path).mp ((queued p.path).mpr (List.mem_map_of_mem mem))
    obtain ⟨file, inside, same⟩ := List.mem_map.mp file
    exact ⟨file, inside, same ▸ .refl⟩
  · have none : (start request).diagnostics = [] := diagnostics
    simp [HasError, none]

/-- Rounds until the queue is empty or `fuel` headers have been read. -/
theorem progressed_loop (fuel : Nat) {done : List Pending} {r : Reading}
    (held : Progressed v request done r) :
    ∃ more, Progressed v request (done ++ more) (loop v request fuel r) ∧
      (more.length = fuel ∨ Run v request r (more.map Pending.path) (loop v request fuel r)) := by
  induction fuel generalizing done r with
  | zero => exact ⟨[], by simpa [loop] using held, .inl rfl⟩
  | succ fuel ih =>
    unfold loop
    split
    next dry => exact ⟨[], by simpa using held, .inr (.done dry)⟩
    next p queue next =>
      obtain ⟨more, last, ends⟩ := ih (held.step next)
      refine ⟨p :: more, by simpa using last, ends.imp (fun all => by simp [all]) (.round next)⟩

end Runs

section Bounds

theorem normal_of_includes {p q : Path} (inc : Includes v request p q) :
    v.isFile q = true ∧ ∃ own : Path, q = own.normalize := by
  obtain ⟨-, text, -, i, -, found⟩ := inc
  refine ⟨List.find?_some found, ?_⟩
  obtain ⟨dir, -, rfl⟩ := List.mem_map.mp (List.mem_of_find?_eq_some found)
  exact ⟨_, rfl⟩

/-- No more headers are queued than `bound` allows for. -/
theorem Progressed.length_lt (free : v.LinkFree) {done : List Pending} {r : Reading}
    (held : Progressed v request done r) : done.length < bound v request := by
  obtain ⟨included, ordered, known⟩ := held.order
  have distinct := held.distinct
  rw [ordered, List.map_append, List.nodup_append] at distinct
  have first : (requested request).Nodup := by simpa [Function.comp_def] using distinct.1
  have second : included.Nodup := by simpa [Function.comp_def] using distinct.2.1
  have asked : (requested request).length ≤ request.files.length := by
    have inside : requested request ⊆ request.files.map Path.normalize :=
      fun p mem => List.mem_eraseDups.mp mem
    simpa using (first.subperm inside).length_le
  have followed := Volume.length_le_of_normal_files free second
    (fun p mem => (normal_of_includes (known p mem).choose_spec).2)
    (fun p mem => (normal_of_includes (known p mem).choose_spec).1)
  have counted := congrArg List.length ordered
  simp only [List.length_append, List.length_map] at counted
  unfold bound
  have room : 0 < Volume.maxPath := by decide
  rw [Nat.mul_add]
  omega

/-- The queue runs dry, and every header was read at its turn. -/
theorem exists_run (free : v.LinkFree) (request : HeaderRequest) :
    ∃ done, Progressed v request done (ofRequest v request) ∧
      Run v request (start request) (done.map Pending.path) (ofRequest v request) := by
  obtain ⟨done, held, ends⟩ := progressed_loop (bound v request) (progressed_start v request)
  -- had the fuel run out, `bound` many distinct headers would have been read
  refine ⟨done, held, ends.resolve_left fun all => ?_⟩
  have fewer := held.length_lt free
  simp only [List.nil_append] at fewer
  omega

theorem Run.queue_eq_nil {r final : Reading} {paths : List Path} (run : Run v request r paths final) :
    final.queue = [] := by
  induction run with
  | done dry => exact dry
  | round _ _ ih => exact ih

end Bounds

end Reading

section Trees
variable {v : Volume} {request : HeaderRequest}
open Reading

theorem HeaderTree.exists_error_iff :
    (∃ failure, (read v request).1 = .error failure) ↔ (ofRequest v request).HasError := by
  unfold read HasError
  simp only [List.isEmpty_iff, List.filter_eq_nil_iff]
  split
  next clean => simpa using clean
  next dirty => simpa using dirty

theorem HeaderTree.files_of_ok {tree : HeaderTree} (ok : (read v request).1 = .ok tree) :
    tree.files = (ofRequest v request).sources.map (·.path) := by
  unfold read at ok
  dsimp only at ok
  split at ok
  · cases ok
    rfl
  · cases ok

namespace Reading
variable {done : List Pending} {r : Reading}

theorem readable_iff {p : Path} : (v.readText p).toOption.isSome = true ↔ Readable v p := by
  unfold Readable
  cases v.readText p <;> simp [Except.toOption]

theorem mem_requested {p : Path} :
    p ∈ requested request ↔ ∃ file ∈ request.files, file.normalize = p := by
  simp [requested]

/-- The headers taken into the tree are those of the headers read that could be. -/
theorem Progressed.paths_sources (held : Progressed v request done r) :
    r.sources.map (·.path) =
      (done.map Pending.path).filter fun p => (v.readText p).toOption.isSome := by
  have each (ps : List Pending) :
      (ps.filterMap fun p => (v.readText p.path).toOption.map (Source.mk p.path)).map (·.path) =
        (ps.map Pending.path).filter fun p => (v.readText p).toOption.isSome := by
    induction ps with
    | nil => rfl
    | cons p ps ih => cases read : (v.readText p.path).toOption <;> simp [read, ih]
  rw [held.sources, each]

section Finished
variable (held : Progressed v request done r) (dry : r.queue = [])
include held dry

theorem Progressed.exists_included : ∃ included : List Path,
    done = (requested request).map (Pending.mk · true) ++ included.map (Pending.mk · false) ∧
      ∀ p ∈ included, ∃ q, Includes v request q p := by
  have order := held.order
  rwa [dry, List.append_nil] at order

/-- Only a requested header makes the reading fail. -/
theorem Progressed.hasError_iff :
    r.HasError ↔ ∃ file ∈ request.files, Faulty v file.normalize := by
  obtain ⟨included, ordered, -⟩ := held.exists_included dry
  rw [held.errors, ordered]
  constructor
  · rintro ⟨p, inside, isAsked, faulty⟩
    rcases List.mem_append.mp inside with first | later
    · obtain ⟨path, asked, rfl⟩ := List.mem_map.mp first
      obtain ⟨file, mem, rfl⟩ := mem_requested.mp asked
      exact ⟨file, mem, faulty⟩
    · obtain ⟨path, -, rfl⟩ := List.mem_map.mp later
      cases isAsked
  · rintro ⟨file, mem, faulty⟩
    have asked : file.normalize ∈ requested request := mem_requested.mpr ⟨file, mem, rfl⟩
    exact ⟨⟨file.normalize, true⟩, List.mem_append_left _ (List.mem_map_of_mem asked), rfl, faulty⟩

/-- Exactly the reachable headers were read. -/
theorem Progressed.mem_iff (p : Path) :
    p ∈ done.map Pending.path ↔ Reachable v request p := by
  have seen (q : Path) : q ∈ r.seen ↔ q ∈ done.map Pending.path := by
    rw [held.seen q, dry, List.append_nil]
  constructor
  · intro mem
    obtain ⟨own, inside, rfl⟩ := List.mem_map.mp mem
    exact held.reachable own (List.mem_append_left _ inside)
  · rintro ⟨file, asked, way⟩
    -- along the includes: with nothing queued, what was seen was read
    induction way with
    | refl =>
      obtain ⟨included, ordered, -⟩ := held.exists_included dry
      have mem : file.normalize ∈ requested request := mem_requested.mpr ⟨file, asked, rfl⟩
      simp [ordered, mem]
    | tail _ inc ih =>
      obtain ⟨own, inside, rfl⟩ := List.mem_map.mp ih
      exact (seen _).mp (held.closed own inside _ inc)

end Finished

end Reading

/-- Following includes computes the reachable closure, once. In a volume without links, whatever
includes what, reading ends and reads distinct paths in lexical normal form. It fails exactly when a
requested header cannot be read or has an error of its own, so what is wrong with a header that is
only included never counts. Otherwise the headers of the tree are distinct, begin with the requested
ones in order, and are the readable ones among those reachable from the request. -/
theorem HeaderTree.read_closure (free : v.LinkFree) (request : HeaderRequest) :
    (∃ paths, Run v request (start request) paths (ofRequest v request) ∧ paths.Nodup ∧
      ∀ p ∈ paths, ∃ q : Path, p = q.normalize) ∧
    ((∃ failure, (HeaderTree.read v request).1 = .error failure) ↔
      ∃ file ∈ request.files, Faulty v file.normalize) ∧
    ∀ tree, (HeaderTree.read v request).1 = .ok tree →
      tree.files.Nodup ∧ requested request <+: tree.files ∧
      ∀ p, p ∈ tree.files ↔ Readable v p ∧ Reachable v request p := by
  obtain ⟨done, held, run⟩ := exists_run free request
  have dry := run.queue_eq_nil
  obtain ⟨included, ordered, known⟩ := held.exists_included dry
  have paths : done.map Pending.path = requested request ++ included := by
    simp [ordered, Function.comp_def]
  have distinct : (done.map Pending.path).Nodup := by
    simpa [dry] using held.distinct
  have fails := HeaderTree.exists_error_iff.trans (held.hasError_iff dry)
  refine ⟨⟨_, run, distinct, fun p mem => ?_⟩, fails, fun tree ok => ?_⟩
  · rw [paths] at mem
    rcases List.mem_append.mp mem with asked | followed
    · obtain ⟨file, -, rfl⟩ := mem_requested.mp asked
      exact ⟨file, rfl⟩
    · obtain ⟨q, inc⟩ := known p followed
      exact (normal_of_includes inc).2
  -- no header that is asked for is faulty, as there is a tree
  · have readable : ∀ p ∈ requested request, Readable v p := by
      intro p asked
      obtain ⟨file, mem, rfl⟩ := mem_requested.mp asked
      refine Classical.byContradiction fun lost => ?_
      obtain ⟨failure, failed⟩ := fails.mpr ⟨file, mem, .inl lost⟩
      simp [ok] at failed
    rw [HeaderTree.files_of_ok ok, held.paths_sources]
    refine ⟨distinct.filter _, ?_, fun p => ?_⟩
    · rw [paths, List.filter_append,
        List.filter_eq_self.mpr fun p mem => readable_iff.mpr (readable p mem)]
      exact List.prefix_append _ _
    · rw [List.mem_filter, held.mem_iff dry, readable_iff, and_comm]

def entwined : Volume where
  nodes := [
    (["core"], .dir),
    (["a.hpp", "core"], .file "#include \"b.hpp\"\n".toUTF8),
    (["b.hpp", "core"], .file "#include \"../core/a.hpp\"\n".toUTF8)]

theorem HeaderTree.read_closure_entwined :
    let request : HeaderRequest := { files := [⟨"core/a.hpp"⟩, ⟨"./core/a.hpp"⟩] }
    entwined.LinkFree ∧
      (∃ paths, Run entwined request (start request) paths (ofRequest entwined request) ∧
        paths.Nodup) ∧
      ∀ tree, (HeaderTree.read entwined request).1 = .ok tree →
        ∀ p, p ∈ tree.files ↔ Readable entwined p ∧ Reachable entwined request p := by
  intro request
  have free : entwined.LinkFree := by simp [Volume.LinkFree, entwined]
  obtain ⟨⟨paths, run, distinct, -⟩, -, files⟩ := HeaderTree.read_closure free request
  exact ⟨free, ⟨paths, run, distinct⟩, fun tree ok => (files tree ok).2.2⟩

end Trees

end HeaderMeta
