import Umbra.A32.Session
import Umbra.Arm64.Quiescence
import Umbra.Backend.SlabRequests

/-!
Precompiling beside other users of the slab.

`Precompile` takes the slab mutex several times: to read the generation, to look the
block up, to see how much room is left and to emit.  It translates in between, without
the mutex, so guest code may be overwritten and invalidated under its hands.  The
generation it hands to `emit` is all that tells the slab so, and a range that is
carried out does not change the generation.
-/

namespace Umbra.A32

open Umbra.Lib Umbra.IR Umbra.Backend CodeCache

/-- What the translator makes of guest memory: a block, and the addresses of the bytes
it was made from. -/
structure Translation (S : Type) where
  block : Block S
  reads : List ℕ

def Translation.Covered {S : Type} (translation : Translation S) : Prop :=
  ∀ a ∈ translation.reads, ∃ I ∈ translation.block.range, a ∈ I

inductive Stage (S : Type)
  | idle
  /-- The generation is read. -/
  | started (location : LocationDescriptor) (generation : ℕ)
  /-- `find_block` has found nothing. -/
  | missed (location : LocationDescriptor) (generation : ℕ)
  /-- There is room for a block. -/
  | roomy (location : LocationDescriptor) (generation : ℕ)
  | translated (generation : ℕ) (translation : Translation S) (readAt : ℕ)

namespace Stage

def generation {S : Type} : Stage S → Option ℕ
  | idle => none
  | started _ generation => some generation
  | missed _ generation => some generation
  | roomy _ generation => some generation
  | translated generation _ _ => some generation

end Stage

/-- A slab, guest memory and one `Jit` that precompiles, with what an observer
remembers: when bytes were overwritten, when requests were made, and when the bytes
each installed block was made from were read. -/
structure Workshop (C S : Type) where
  slab : Slab C
  memory : ℕ → UInt8
  stage : Stage S
  clock : ℕ
  writes : List (ℕ × ℕ)
  requests : List (ℕ × SlabRequest)
  origin : LocationDescriptor → ℕ × List ℕ

inductive WorkshopAction (S : Type)
  /-- `Precompile` is called and reads the generation. -/
  | precompile (location : LocationDescriptor)
  /-- The call goes on to its next access. -/
  | proceed
  /-- Somebody overwrites a byte of guest memory. -/
  | write (address : ℕ) (byte : UInt8)
  /-- Somebody else uses the slab. -/
  | slab (action : SlabAction S)

namespace Workshop

variable {C S : Type} [CodeCache C S]

def begin_ (slab : Slab C) (memory : ℕ → UInt8) : Workshop C S :=
  ⟨slab, memory, .idle, 1, [], [], fun _ => (0, [])⟩

def proceed (translate : (ℕ → UInt8) → LocationDescriptor → Translation S) (w : Workshop C S) :
    Option (Workshop C S) :=
  match w.stage with
  | .idle => none
  | .started location generation =>
      match w.slab.findBlock location generation with
      | (some _, slab) => some { w with slab, stage := .idle }
      | (none, slab) => some { w with slab, stage := .missed location generation }
  | .missed location generation =>
      if w.slab.activeSegmentSpaceRemaining < minimumRemainingCodesize then
        some { w with
          slab := w.slab.recycleCache
          stage := .idle
          requests := (w.clock, .recycle) :: w.requests }
      else some { w with stage := .roomy location generation }
  | .roomy location generation =>
      let translation := translate w.memory location
      some { w with
        stage := .translated generation
          { translation with block := { translation.block with location } } w.clock }
  | .translated generation translation readAt =>
      match w.slab.emit translation.block generation false with
      | none => none
      | some (result, slab) =>
          some { w with
            slab
            stage := .idle
            origin := if result.any (·.newlyEmitted) then
                Function.update w.origin translation.block.location (readAt, translation.reads)
              else w.origin }

/-- One access.  Blocks are emitted by the one `Jit` only. -/
def step (translate : (ℕ → UInt8) → LocationDescriptor → Translation S) (w : Workshop C S)
    (action : WorkshopAction S) : Option (Workshop C S) :=
  Option.map (fun w' => { w' with clock := w.clock + 1 }) <|
    match action with
    | .precompile location =>
        match w.stage with
        | .idle => w.slab.generation.map fun generation =>
            { w with stage := .started location generation }
        | _ => none
    | .proceed => w.proceed translate
    | .write address byte => some { w with
        memory := Function.update w.memory address byte
        writes := (w.clock, address) :: w.writes }
    | .slab (.emit _ _ _) => none
    | .slab action => (w.slab.step action).map fun slab => { w with
        slab
        requests := action.request.toList.map (w.clock, ·) ++ w.requests }

/-- The block of the descriptor was made from a byte that was overwritten since, and
a request that covers the byte was made after that. -/
def Stale (w : Workshop C S) (d : LocationDescriptor) : Prop :=
  ∃ a ∈ (w.origin d).2, ∃ written, (written, a) ∈ w.writes ∧ (w.origin d).1 < written ∧
    ∃ requested request, (requested, request) ∈ w.requests ∧ written < requested ∧
      request.Contains a

/-- No range is carried out under the hands of the `Jit`: while it holds a translation
for the current generation, pending work is finished only if that is a full clear, or
moves the generation on, or if the ranges concern none of the bytes that were read. -/
def Spares (translate : (ℕ → UInt8) → LocationDescriptor → Translation S) (w : Workshop C S) :
    WorkshopAction S → Prop
  | .slab action => ∀ generation translation readAt,
      w.stage = .translated generation translation readAt →
      generation = w.slab.currentGeneration → w.slab.Finishes action →
      w.slab.ClearAllPending ∨ action.kind = some .clearAll ∨
        (∀ t, w.slab.step action = some t → t.currentGeneration ≠ generation) ∨
        ∀ a ∈ translation.reads, ¬w.slab.pendingRanges.Covers a ∧ ¬Slab.Requests action a
  | .proceed => ∀ location generation, w.stage = .roomy location generation →
      (translate w.memory location).Covered
  | _ => True

/-! ### Blocks -/

/-- The blocks of the slab, set against the requests: a request made since the bytes
were read has doomed the block. -/
structure Accounted (slab : Slab C) (requests : List (ℕ × SlabRequest))
    (origin : LocationDescriptor → ℕ × List ℕ) : Prop where
  registered : ∀ {d a}, slab.Present d → a ∈ (origin d).2 → Registered slab.cache d a
  doomed : ∀ {time request d a}, (time, request) ∈ requests → slab.Present d →
    (origin d).1 < time → a ∈ (origin d).2 → request.Contains a → slab.Doomed d

variable {s t : Slab C} {requests : List (ℕ × SlabRequest)}

theorem Accounted.evolves {origin : LocationDescriptor → ℕ × List ℕ}
    (h : Accounted s requests origin) (hevolves : ∀ d, Slab.Evolves s t d) :
    Accounted t requests origin where
  registered {d a} hpresent ha :=
    ((hevolves d).registered hpresent a).mpr (h.registered ((hevolves d).present hpresent) ha)
  doomed {_ _ d _} hmem hpresent htime ha hcontains :=
    (hevolves d).doomed (h.doomed hmem ((hevolves d).present hpresent) htime ha hcontains)

theorem covers_of_contains {d : LocationDescriptor} {request : SlabRequest} {a : ℕ}
    (hcontains : request.Contains a) (hregistered : Registered s.cache d a) :
    s.Covers d request := by
  cases request with
  | clear => trivial
  | recycle => exact hcontains
  | range start length => exact ⟨a, hcontains.1, hcontains.2.1, hcontains.2.2, hregistered⟩

theorem Accounted.step {origin : LocationDescriptor → ℕ × List ℕ} (h : Accounted s requests origin)
    {action : SlabAction S} (hstep : s.step action = some t)
    (hinstalls : s.installs t action = none) (clock : ℕ) :
    Accounted t (action.request.toList.map (clock, ·) ++ requests) origin := by
  have hevolves : ∀ d, Slab.Evolves s t d := fun d =>
    Slab.evolves_step hstep (by rw [hinstalls]; exact nofun)
  refine ⟨(h.evolves hevolves).registered, fun {time request d a} hmem hpresent htime ha hcontains
    => ?_⟩
  rcases List.mem_append.mp hmem with hnew | hold
  · obtain ⟨request', hrequest, heq⟩ := List.mem_map.mp hnew
    obtain ⟨-, rfl⟩ := Prod.mk.inj heq
    have hregistered := h.registered ((hevolves d).present hpresent) ha
    exact Slab.doomed_of_request (Option.mem_toList.mp hrequest) hstep
      (covers_of_contains hcontains hregistered)
  · exact (h.evolves hevolves).doomed hold hpresent htime ha hcontains

/-! ### The translation in flight -/

/-- The translation in flight, set against the requests: while its generation is the
current one, every request made since its bytes were read waits. -/
structure InFlight (slab : Slab C) (requests : List (ℕ × SlabRequest)) (stage : Stage S) :
    Prop where
  behind : ∀ {generation}, stage.generation = some generation → generation ≤ slab.currentGeneration
  covered : ∀ {generation translation readAt},
    stage = .translated generation translation readAt → translation.Covered
  awaits : ∀ {generation translation readAt time request a},
    stage = .translated generation translation readAt → generation = slab.currentGeneration →
    (time, request) ∈ requests → readAt < time → a ∈ translation.reads → request.Contains a →
    slab.Awaits a

omit [CodeCache C S] in
theorem InFlight.idle (slab : Slab C) (requests : List (ℕ × SlabRequest)) :
    InFlight slab requests (.idle : Stage S) :=
  ⟨nofun, nofun, nofun⟩

theorem requests_of_contains {action : SlabAction S} {request : SlabRequest} {a : ℕ}
    (hrequest : action.request = some request) (hcontains : request.Contains a) :
    action.kind = some .clearAll ∨ Slab.Requests action a := by
  cases request with
  | clear => exact .inl (by rw [SlabAction.kind, hrequest]; rfl)
  | recycle => exact absurd hcontains id
  | range start length =>
      obtain ⟨hlo, hhi, hlt⟩ := hcontains
      refine .inr ⟨start, length, hrequest, by omega, hlo, ?_⟩
      unfold Slab.inclusiveRangeEnd Slab.maxAddress
      split <;> omega

/-- A request of others that concerns the bytes read waits, or the generation has moved on. -/
theorem InFlight.step {stage : Stage S} (h : InFlight s requests stage) {action : SlabAction S}
    (hahead : s.PendingAhead) (hle : s.currentGeneration ≤ t.currentGeneration)
    (hstep : s.step action = some t) (hspares : ∀ generation translation readAt,
      stage = .translated generation translation readAt →
      generation = s.currentGeneration → s.Finishes action →
      s.ClearAllPending ∨ action.kind = some .clearAll ∨
        (∀ t, s.step action = some t → t.currentGeneration ≠ generation) ∨
        ∀ a ∈ translation.reads, ¬s.pendingRanges.Covers a ∧ ¬Slab.Requests action a) (clock : ℕ) :
    InFlight t (action.request.toList.map (clock, ·) ++ requests) stage where
  behind hgeneration := (h.behind hgeneration).trans hle
  covered := h.covered
  awaits := by
    intro generation translation readAt time request a hstage hcurrent hmem htime ha hcontains
    have hbehind : generation ≤ s.currentGeneration := h.behind (by rw [hstage]; rfl)
    have hsame : generation = s.currentGeneration := by omega
    refine Slab.awaits_step hahead hstep (hcurrent.symm.trans hsame) (fun hfinishes => ?_) ?_
    · refine (hspares _ _ _ hstage hsame hfinishes).imp_right (Or.imp_right ?_)
      rintro (hmoved | hreads)
      · exact absurd hcurrent.symm (hmoved t hstep)
      · exact hreads a ha
    · rcases List.mem_append.mp hmem with hnew | hold
      · obtain ⟨request', hrequest, heq⟩ := List.mem_map.mp hnew
        obtain ⟨-, rfl⟩ := Prod.mk.inj heq
        exact .inr (requests_of_contains (Option.mem_toList.mp hrequest) hcontains)
      · exact .inl (h.awaits hstage hsame hold htime ha hcontains)

/-! ### Every access -/

/-- An emission that installs a block was let through by the generation check. -/
theorem of_newlyEmitted {block : Block S} {generation : ℕ} {executing : Bool}
    {result : Option BlockDescriptor} (hemit : s.emit block generation executing = some (result, t))
    (hnew : result.any (·.newlyEmitted) = true) :
    s.quiet = true ∧ generation = s.currentGeneration ∧
      ∀ a, (∃ I ∈ block.range, a ∈ I) → Registered t.cache block.location a := by
  rcases Slab.emit_cases hemit with ⟨rfl, -⟩ | ⟨hquiet, hgeneration,
    ⟨p, b, segments, clock, -, rfl, -, hold, -⟩ |
    ⟨p, cache, segments, bytes, clock, -, hcache, -, rfl⟩⟩
  · cases hnew
  · rw [Option.any_some, hold] at hnew
    cases hnew
  · exact ⟨hquiet, hgeneration, fun a ha => (registered_emit hcache _ a).mpr (.inr ⟨rfl, ha⟩)⟩

structure Tracked (w : Workshop C S) : Prop where
  coherent : w.slab.Coherent
  past : ∀ {time request}, (time, request) ∈ w.requests → time < w.clock
  accounted : Accounted w.slab w.requests w.origin
  inFlight : InFlight w.slab w.requests w.stage

/-- A block is installed only if no request was made since its bytes were read. -/
theorem Tracked.emit {w : Workshop C S} (h : w.Tracked) {generation readAt : ℕ}
    {translation : Translation S} (hstage : w.stage = .translated generation translation readAt)
    {result : Option BlockDescriptor}
    (hemit : w.slab.emit translation.block generation false = some (result, t)) :
    Accounted t w.requests (if result.any (·.newlyEmitted) then
      Function.update w.origin translation.block.location (readAt, translation.reads)
        else w.origin) := by
  split
  · rename_i hnew
    obtain ⟨hquiet, hgeneration, hregistered⟩ := of_newlyEmitted hemit hnew
    have hother : ∀ {d}, d ≠ translation.block.location → Slab.Evolves w.slab t d := fun hd =>
      Slab.evolves_emit hemit fun _ => hd
    constructor
    · intro d a hpresent ha
      by_cases hd : d = translation.block.location
      · subst hd
        rw [Function.update_self] at ha
        exact hregistered a (h.inFlight.covered hstage a ha)
      · rw [Function.update_of_ne hd] at ha
        exact ((hother hd).registered hpresent a).mpr
          (h.accounted.registered ((hother hd).present hpresent) ha)
    · intro time request d a hmem hpresent htime ha hcontains
      by_cases hd : d = translation.block.location
      · subst hd
        rw [Function.update_self] at ha htime
        exact absurd (h.inFlight.awaits hstage hgeneration hmem htime ha hcontains)
          (Slab.not_awaits_of_quiet hquiet a)
      · rw [Function.update_of_ne hd] at ha htime
        exact (hother hd).doomed
          (h.accounted.doomed hmem ((hother hd).present hpresent) htime ha hcontains)
  · rename_i hold
    exact h.accounted.evolves fun d => Slab.evolves_emit hemit fun hnew => absurd hnew hold

variable {translate : (ℕ → UInt8) → LocationDescriptor → Translation S}

theorem Tracked.proceed {w w' : Workshop C S} (h : w.Tracked)
    (hspares : w.Spares translate .proceed) (hproceed : w.proceed translate = some w') :
    w'.slab.Coherent ∧ (∀ {time request}, (time, request) ∈ w'.requests → time ≤ w.clock) ∧
      Accounted w'.slab w'.requests w'.origin ∧ InFlight w'.slab w'.requests w'.stage := by
  have hpast : ∀ {time request}, (time, request) ∈ w.requests → time ≤ w.clock :=
    fun hmem => (h.past hmem).le
  unfold Workshop.proceed at hproceed
  split at hproceed
  · cases hproceed
  · rename_i location generation hstage
    have hstep : w.slab.step (.findBlock location generation) =
        some (w.slab.findBlock location generation).2 := rfl
    obtain ⟨hcoherent, -, hle⟩ := h.coherent.step hstep
    have haccounted := h.accounted.evolves fun d => w.slab.evolves_findBlock location generation d
    have hbehind : generation ≤ w.slab.currentGeneration := h.inFlight.behind (by rw [hstage]; rfl)
    split at hproceed
    · rename_i b slab hfind
      rw [hfind] at hcoherent haccounted
      obtain rfl := Option.some.inj hproceed
      exact ⟨hcoherent, hpast, haccounted, .idle _ _⟩
    · rename_i slab hfind
      rw [hfind] at hcoherent haccounted hle
      obtain rfl := Option.some.inj hproceed
      refine ⟨hcoherent, hpast, haccounted, ⟨fun hgeneration => ?_, nofun, nofun⟩⟩
      obtain rfl := Option.some.inj hgeneration
      exact hbehind.trans hle
  · rename_i location generation hstage
    have hbehind : generation ≤ w.slab.currentGeneration := h.inFlight.behind (by rw [hstage]; rfl)
    split at hproceed
    · obtain rfl := Option.some.inj hproceed
      have hstep : w.slab.step (.recycleCache : SlabAction S) = some w.slab.recycleCache := rfl
      refine ⟨(h.coherent.step hstep).1, fun hmem => ?_,
        h.accounted.step hstep rfl w.clock, .idle _ _⟩
      rcases List.mem_cons.mp hmem with heq | hold
      · exact (Prod.mk.inj heq).1.le
      · exact hpast hold
    · obtain rfl := Option.some.inj hproceed
      refine ⟨h.coherent, hpast, h.accounted, ⟨fun hgeneration => ?_, nofun, nofun⟩⟩
      obtain rfl := Option.some.inj hgeneration
      exact hbehind
  · rename_i location generation hstage
    obtain rfl := Option.some.inj hproceed
    have hbehind : generation ≤ w.slab.currentGeneration := h.inFlight.behind (by rw [hstage]; rfl)
    refine ⟨h.coherent, hpast, h.accounted, ⟨fun hgeneration => ?_, fun hnow => ?_, ?_⟩⟩
    · obtain rfl := Option.some.inj hgeneration
      exact hbehind
    · obtain ⟨-, rfl, -⟩ := Stage.translated.inj hnow
      exact hspares location generation hstage
    · intro _ _ _ time request a hnow _ hmem htime
      obtain ⟨-, -, rfl⟩ := Stage.translated.inj hnow
      exact absurd (hpast hmem) (not_le.mpr htime)
  · rename_i generation translation readAt hstage
    split at hproceed
    · cases hproceed
    · rename_i result t hemit
      obtain rfl := Option.some.inj hproceed
      exact ⟨h.coherent.keeps (Slab.keeps_emit h.coherent.ahead hemit), hpast,
        h.emit hstage hemit, .idle _ _⟩

theorem Tracked.step {w w' : Workshop C S} (h : w.Tracked) {action : WorkshopAction S}
    (hspares : w.Spares translate action) (hstep : w.step translate action = some w') :
    w'.Tracked := by
  obtain ⟨v, hv, rfl⟩ := Option.map_eq_some_iff.mp hstep
  cases action with
  | precompile location =>
      simp only at hv
      split at hv
      · obtain ⟨generation, hgeneration, rfl⟩ := Option.map_eq_some_iff.mp hv
        refine ⟨h.coherent, fun hmem => (h.past hmem).trans (Nat.lt_succ_self _), h.accounted,
          ⟨fun hnow => ?_, nofun, nofun⟩⟩
        obtain rfl := Option.some.inj hnow
        unfold Slab.generation at hgeneration
        split at hgeneration
        · exact (Option.some.inj hgeneration).ge
        · cases hgeneration
      · cases hv
  | proceed =>
      obtain ⟨hcoherent, hpast, haccounted, hinFlight⟩ := h.proceed hspares hv
      exact ⟨hcoherent, fun hmem => Nat.lt_succ_of_le (hpast hmem), haccounted, hinFlight⟩
  | write address byte =>
      obtain rfl := Option.some.inj hv
      exact ⟨h.coherent, fun hmem => (h.past hmem).trans (Nat.lt_succ_self _), h.accounted,
        h.inFlight⟩
  | slab action =>
      obtain ⟨t, ht, hinstalls, rfl⟩ : ∃ t, w.slab.step action = some t ∧
          w.slab.installs t action = none ∧ v = { w with
            slab := t
            requests := action.request.toList.map (w.clock, ·) ++ w.requests } := by
        cases action
        case emit => cases hv
        all_goals
          obtain ⟨t, ht, rfl⟩ := Option.map_eq_some_iff.mp hv
          exact ⟨t, ht, rfl, rfl⟩
      obtain ⟨hcoherent, -, hle⟩ := h.coherent.step ht
      refine ⟨hcoherent, fun hmem => ?_, h.accounted.step ht hinstalls w.clock,
        h.inFlight.step h.coherent.ahead hle ht hspares w.clock⟩
      rcases List.mem_append.mp hmem with hnew | hold
      · obtain ⟨request', -, heq⟩ := List.mem_map.mp hnew
        exact (Prod.mk.inj heq).1 ▸ Nat.lt_succ_self _
      · exact (h.past hold).trans (Nat.lt_succ_self _)

/-- No stale translation stays.  In every run in which no range that concerns bytes the
`Jit` has read is carried out under its hands, no block is present that was made from
a byte overwritten before a request that covers it, once nothing is pending. -/
theorem notStale_of_reaches {cache : C} {begin_ : CodePtr} {usableBytes : ℕ} {shared : Bool}
    {memory : ℕ → UInt8} {w : Workshop C S}
    (hreach : Reaches (step translate) (Spares translate)
      (Workshop.begin_ (.create cache begin_ usableBytes shared) memory) w)
    (hquiet : w.slab.quiet = true) {d : LocationDescriptor} (hpresent : w.slab.Present d) :
    ¬w.Stale d := by
  have htracked : w.Tracked := by
    refine hreach.invariant (I := Tracked) ?_ fun _ _ _ hv hspares hstep => hv.step hspares hstep
    refine ⟨.create _ _ _ _, fun hmem => absurd hmem List.not_mem_nil, ⟨nofun, nofun⟩, .idle _ _⟩
  rintro ⟨a, ha, written, -, hread, requested, request, hmem, hwritten, hcontains⟩
  refine Slab.not_present_of_quiet hquiet ?_ hpresent
  exact htracked.accounted.doomed hmem hpresent (hread.trans hwritten) ha hcontains

/-! A translator that makes a block of one word. -/

def translateWord (_ : ℕ → UInt8) (d : LocationDescriptor) : Translation Arm64.BlockRelocation :=
  ⟨⟨d, Interval.closed d.toNat (d.toNat + 3), 64, []⟩,
    [d.toNat, d.toNat + 1, d.toNat + 2, d.toNat + 3]⟩

theorem translateWord_covered (memory : ℕ → UInt8) (d : LocationDescriptor) :
    (translateWord memory d).Covered := by
  intro a ha
  refine ⟨⟨d.toNat, d.toNat + 3, by omega⟩, by simp [translateWord, Interval.closed], ?_⟩
  simp only [translateWord, List.mem_cons, List.not_mem_nil, or_false] at ha
  change d.toNat ≤ a ∧ a ≤ d.toNat + 3
  omega

def emptyWorkshop : Workshop Arm64.AddressSpace Arm64.BlockRelocation :=
  begin_ (Arm64.createSlab (2 * 1024 * 1024) 5000 true) fun _ => 0

/-- The translation is held while a clear is carried out, and made again after that. -/
def clearedRun : List (WorkshopAction Arm64.BlockRelocation) :=
  [.precompile 4096, .proceed, .proceed, .proceed, .write 4096 1, .slab .clearCache, .proceed,
    .precompile 4096, .proceed, .proceed, .proceed, .proceed]

theorem clearedRun_isSome : (run (step translateWord) emptyWorkshop clearedRun).isSome := by
  decide

theorem notStale_clearedRun :
    ((run (step translateWord) emptyWorkshop clearedRun).get clearedRun_isSome).slab.Present 4096 ∧
    ¬((run (step translateWord) emptyWorkshop clearedRun).get clearedRun_isSome).Stale 4096 := by
  have hcovered : ∀ w : Workshop Arm64.AddressSpace Arm64.BlockRelocation,
      w.Spares translateWord .proceed := fun w location _ _ => translateWord_covered _ location
  have hpresent : ((run (step translateWord) emptyWorkshop clearedRun).get
    clearedRun_isSome).slab.Present 4096 := by decide
  refine ⟨hpresent, notStale_of_reaches (reaches_of_run
    (Option.some_get clearedRun_isSome).symm ?_) (by decide) hpresent⟩
  exact ⟨trivial, fun _ _ => ⟨hcovered _, fun _ _ => ⟨hcovered _, fun _ _ => ⟨hcovered _,
    fun _ _ => ⟨trivial, fun _ _ => ⟨fun _ _ _ _ _ _ => .inr (.inl rfl),
    fun _ _ => ⟨hcovered _, fun _ _ => ⟨trivial, fun _ _ => ⟨hcovered _, fun _ _ => ⟨hcovered _,
    fun _ _ => ⟨hcovered _, fun _ _ => ⟨hcovered _, fun _ _ => trivial⟩⟩⟩⟩⟩⟩⟩⟩⟩⟩⟩⟩

def overwrittenRun : List (WorkshopAction Arm64.BlockRelocation) :=
  [.precompile 4096, .proceed, .proceed, .proceed, .write 4096 1,
    .slab (.invalidateCacheRange 4096 4), .proceed]

theorem overwrittenRun_isSome : (run (step translateWord) emptyWorkshop overwrittenRun).isSome := by
  decide

/-- Nobody is in, so the range is carried out at once and finds no block; the generation
stays, and the block made from the old byte is installed behind it. -/
theorem overwrittenRun_stale : ∃ w,
    run (step translateWord) emptyWorkshop overwrittenRun = some w ∧ w.slab.quiet = true ∧
    w.slab.Present 4096 ∧ w.Stale 4096 := by
  refine ⟨_, (Option.some_get overwrittenRun_isSome).symm, by decide, by decide, ?_⟩
  exact ⟨4096, by decide, 5, by decide, by decide, 6, .range 4096 4, by decide, by decide,
    by decide⟩

end Workshop

end Umbra.A32
