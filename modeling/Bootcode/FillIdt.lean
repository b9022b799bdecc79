import Bootcode.Interleave

/-!
The hand-off at boot in `boot.S`: the first vCPU to exchange the word
`fill_idt_lock_grab` fills the IDT and then stores 2; the others wait. The loop
they wait in tests bit 1 the wrong way round, so what comes of it depends on the
order of the steps; `hand_off` says on which.
-/
namespace Bootcode.FillIdt
open Bootcode.Interleave

abbrev Word := BitVec 64

/-- Where a vCPU stands: before its `xchgq`, in `fill_idt`, before
    `send_init_startup_to_all`, before the store of 2, in the wait loop, or past
    both, at `lidtq`, as the filler or not. -/
inductive Pc
  | grab
  | fill_idt
  | send
  | store
  | wait
  | skip (filler : Bool)
  deriving DecidableEq

/-- One step on the word `fill_idt_lock_grab`. -/
def fill_idt_lock_grab (w : Word) : Pc → Option (Word × Pc)
  | .grab => some (0,if w &&& 1 = 0 then .wait else .fill_idt)
  | .fill_idt => some (w,.send)
  | .send => some (w,.store)
  | .store => some (2,.skip true)
  | .wait => some (w,if w &&& 2 = 0 then .skip false else .wait)
  | .skip _ => none

/-- `n` vCPUs, each of which gets to its `xchgq` at any time. -/
def boot (n : Nat) : System (Config (Fin n) Word Pc) (Fin n × Unit) :=
  threads (fun s => s = ⟨1,fun _ => .grab⟩) (fun _ _ w pc => fill_idt_lock_grab w pc)

/-- The vCPU runs `fill_idt`, or has. -/
def fills : Pc → Nat
  | .fill_idt | .send | .store | .skip true => 1
  | _ => 0

section
variable {n : Nat}

/-- `fill_idt` has returned; the filler has stored 2. -/
def Returned (s : Config (Fin n) Word Pc) : Prop := ∃ i, s.loc i = .send ∨ s.loc i = .store ∨ s.loc i = .skip true
def Stored (s : Config (Fin n) Word Pc) : Prop := ∃ i, s.loc i = .skip true
instance (s : Config (Fin n) Word Pc) : Decidable (Returned s) := inferInstanceAs (Decidable (∃ _, _))
/-- However the run goes on, vCPU `i` stays in the wait loop. -/
def Spins (s : Config (Fin n) Word Pc) (i : Fin n) : Prop := ∀ as t, exec (boot n) s as = some t → t.loc i = .wait

/-- What is promised of a state. -/
structure HandOff (s : Config (Fin n) Word Pc) : Prop where
  one : tally fills s.loc = if ∀ i, s.loc i = .grab then 0 else 1
  prompt : (∃ i, s.loc i = .skip false) → Returned s
  live : Stored s → (∀ i, s.loc i ≠ .grab) → ∀ i, ¬ Spins s i

/-- When a vCPU may take its next step: a waiter tests the word only once `fill_idt` has
    returned; and the filler stores 2 only while nobody waits or somebody has yet to
    exchange the word. -/
def Due (s : Config (Fin n) Word Pc) : Pc → Prop
  | .wait => Returned s
  | .store => (∀ i, s.loc i ≠ .wait) ∨ ∃ i, s.loc i = .grab
  | _ => True
def StepOk (s : Config (Fin n) Word Pc) (a : Fin n × Unit) : Prop := Due s (s.loc a.1)

instance (s : Config (Fin n) Word Pc) : DecidablePred (Due s)
  | .wait => inferInstanceAs (Decidable (Returned s))
  | .store => inferInstanceAs (Decidable (_ ∨ _))
  | .grab | .fill_idt | .send | .skip _ => .isTrue trivial
instance (s : Config (Fin n) Word Pc) (a : Fin n × Unit) : Decidable (StepOk s a) := inferInstanceAs (Decidable (Due s _))

/-- The word is 1 until the first exchange, and then 0, or 2 once the filler has stored. -/
structure Inv (s : Config (Fin n) Word Pc) : Prop where
  fresh : (∀ i, s.loc i = .grab) → s.shared = 1
  taken : (∃ i, s.loc i ≠ .grab) → tally fills s.loc = 1 ∧ (s.shared = 0 ∨ s.shared = 2 ∧ Stored s)

theorem Inv.start {s : Config (Fin n) Word Pc} (first : (boot n).init s) : Inv s := by
  obtain rfl : s = ⟨1,fun _ => .grab⟩ := first
  refine ⟨fun _ => rfl,?_⟩
  rintro ⟨i,not⟩
  exact absurd rfl not

/-- There is one filler: whoever runs `fill_idt` is it. -/
theorem filler_unique {s : Config (Fin n) Word Pc} (one : tally fills s.loc = 1) {i j : Fin n} (mine : fills (s.loc i) = 1)
    (yours : fills (s.loc j) = 1) : i = j := by
  by_contra other
  have both := add_le_tally fills s.loc other
  omega

/-- What a step does: to the word, and to the vCPU that takes it. -/
inductive Moves (w : Word) : Pc → Word → Pc → Prop
  | grab (free : w &&& 1 ≠ 0) : Moves w .grab 0 .fill_idt
  | late (taken : w &&& 1 = 0) : Moves w .grab 0 .wait
  | fill_idt : Moves w .fill_idt w .send
  | send : Moves w .send w .store
  | store : Moves w .store 2 (.skip true)
  | leave (clear : w &&& 2 = 0) : Moves w .wait w (.skip false)
  | spin (set : w &&& 2 ≠ 0) : Moves w .wait w .wait

theorem boot_step {s s' : Config (Fin n) Word Pc} {a : Fin n × Unit} (moved : (boot n).step s a = some s') :
    Moves s.shared (s.loc a.1) s'.shared (s'.loc a.1) ∧ (∀ i, i ≠ a.1 → s'.loc i = s.loc i) ∧
      tally fills s'.loc + fills (s.loc a.1) = tally fills s.loc + fills (s'.loc a.1) := by
  obtain ⟨w,pc,own,rfl⟩ := threads_step (x := a.2) moved
  refine ⟨?_,fun i other => Function.update_of_ne other _ _,?_⟩
  · simp only [Function.update_self]
    cases before : s.loc a.1 <;> rw [before] at own
    case grab =>
      obtain ⟨rfl,rfl⟩ := Prod.mk.inj (Option.some.inj own)
      split
      · exact .late ‹_›
      · exact .grab ‹_›
    case fill_idt => obtain ⟨rfl,rfl⟩ := Prod.mk.inj (Option.some.inj own); exact .fill_idt
    case send => obtain ⟨rfl,rfl⟩ := Prod.mk.inj (Option.some.inj own); exact .send
    case store => obtain ⟨rfl,rfl⟩ := Prod.mk.inj (Option.some.inj own); exact .store
    case wait =>
      obtain ⟨rfl,rfl⟩ := Prod.mk.inj (Option.some.inj own)
      split
      · exact .leave ‹_›
      · exact .spin ‹_›
    case skip => cases own
  · simp only [Function.update_self]
    exact tally_update fills s.loc a.1 pc

theorem Inv.step {s s' : Config (Fin n) Word Pc} {a : Fin n × Unit} (inv : Inv s) (moved : (boot n).step s a = some s') :
    Inv s' := by
  obtain ⟨moves,others,sum⟩ := boot_step moved
  have gone : s'.loc a.1 ≠ .grab := by
    intro same
    rw [same] at moves
    generalize s.loc a.1 = pc,s'.shared = w at moves
    cases moves
  refine ⟨fun all => absurd (all a.1) gone,?_⟩
  intro _
  by_cases fresh : ∀ i, s.loc i = .grab
  · -- The first exchange finds 1.
    have nobody : tally fills s.loc = 0 := tally_eq_zero.mpr fun i => by rw [fresh i]; rfl
    rw [inv.fresh fresh,fresh a.1] at moves
    rw [fresh a.1] at sum
    generalize s'.loc a.1 = pc',s'.shared = w' at moves sum ⊢
    cases moves with
    | grab free =>
      simp only [fills] at sum
      exact ⟨by omega,.inl rfl⟩
    | late taken => exact absurd taken (by decide)
  · obtain ⟨one,word⟩ := inv.taken (by simpa using fresh)
    have odd : s.shared &&& 1 = 0 := by
      rcases word with zero | ⟨two,-⟩
      · rw [zero]; rfl
      · rw [two]; rfl
    have stays : Stored s → s.loc a.1 ≠ .skip true → Stored s' := fun stored other =>
      exists_of_others (P := (· = Pc.skip true)) others (fun is => absurd is other) stored
    have kept : s.shared = 0 ∨ s.shared = 2 ∧ (s.loc a.1 ≠ .skip true → Stored s') :=
      word.imp_right fun two => ⟨two.1,stays two.2⟩
    generalize after : s'.loc a.1 = pc',s'.shared = w',s.loc a.1 = pc at moves sum kept ⊢
    cases moves with
    | grab free => exact absurd odd free
    | late taken =>
      simp only [fills] at sum
      exact ⟨by omega,.inl rfl⟩
    | store =>
      simp only [fills] at sum
      exact ⟨by omega,.inr ⟨rfl,⟨a.1,after⟩⟩⟩
    | fill_idt | send | leave clear | spin set =>
      simp only [fills] at sum
      exact ⟨by omega,kept.imp_right fun two => ⟨two.1,two.2 (by simp)⟩⟩

/-- Once the filler has stored and everybody has exchanged, the word stays: a
    waiter spins exactly while bit 1 is set. -/
theorem spins_of_two {s : Config (Fin n) Word Pc} {i : Fin n} (two : s.shared = 2) (inv : Inv s) (stored : Stored s)
    (none : ∀ j, s.loc j ≠ .grab) (waits : s.loc i = .wait) : Spins s i := by
  intro as
  induction as generalizing s with
  | nil =>
    intro t ran
    cases ran
    exact waits
  | cons a rest ih =>
    intro t ran
    obtain ⟨next,moved,ran⟩ := Option.bind_eq_some_iff.mp ran
    obtain ⟨moves,others,-⟩ := boot_step moved
    obtain ⟨f,filler⟩ := stored
    have one := (inv.taken ⟨i,none i⟩).1
    -- Nobody else fills, so only waiters move, and they find bit 1 set.
    have idle : fills (s.loc a.1) = 1 → s.loc a.1 = .skip true := by
      intro fills_
      rw [filler_unique one fills_ (by rw [filler]; rfl),filler]
    have exchanged := none a.1
    rw [two] at moves
    generalize before : s.loc a.1 = pc,after : next.loc a.1 = pc',word : next.shared = w' at moves idle exchanged
    cases moves with
    | grab free | late taken => exact absurd rfl exchanged
    | fill_idt | send | store => cases idle rfl
    | leave clear => exact absurd clear (by decide)
    | spin set =>
      have same : ∀ j, next.loc j = s.loc j := by
        intro j
        by_cases mine : j = a.1
        · rw [mine,before,after]
        · exact others j mine
      exact ih word (inv.step moved) ⟨f,by rw [same,filler]⟩ (fun j => by rw [same]; exact none j)
        (by rw [same,waits]) t ran

theorem not_spins {s : Config (Fin n) Word Pc} {i : Fin n} (clear : s.shared &&& 2 = 0) : ¬ Spins s i := by
  intro spins
  have waits : s.loc i = .wait := spins [] s rfl
  have leaves : fill_idt_lock_grab s.shared (s.loc i) = some (s.shared,.skip false) := by
    rw [waits,fill_idt_lock_grab,if_pos clear]
  have out := spins [(i,())] ⟨s.shared,Function.update s.loc i (.skip false)⟩ (by simp [exec,boot,threads,leaves])
  simp at out

/-! ### The hand-off -/

theorem HandOff.start {s : Config (Fin n) Word Pc} (first : (boot n).init s) : HandOff s := by
  obtain rfl : s = ⟨1,fun _ => .grab⟩ := first
  refine ⟨?_,?_,?_⟩
  · rw [if_pos fun _ => rfl]
    exact tally_eq_zero.mpr fun _ => rfl
  · rintro ⟨i,out⟩
    cases out
  · rintro ⟨i,stored⟩
    cases stored

theorem one_of_inv {s : Config (Fin n) Word Pc} (inv : Inv s) :
    tally fills s.loc = if ∀ i, s.loc i = .grab then 0 else 1 := by
  split
  · rename_i fresh
    exact tally_eq_zero.mpr fun i => by rw [fresh i]; rfl
  · rename_i some
    exact (inv.taken (by simpa using some)).1

/-- Before the filler's store the promise about waiters is not yet due. -/
theorem not_stored {s : Config (Fin n) Word Pc} (inv : Inv s) {i : Fin n} (fills_ : fills (s.loc i) = 1)
    (not : s.loc i ≠ .skip true) : ¬ Stored s := by
  rintro ⟨f,filler⟩
  have one := (inv.taken ⟨f,by rw [filler]; simp⟩).1
  rw [filler_unique one fills_ (by rw [filler]; rfl)] at not
  exact not filler

/-- The store of 2 leaves nobody behind exactly when nobody waits or somebody has yet
    to overwrite it. -/
theorem store_hand_off {s s' : Config (Fin n) Word Pc} {v : Fin n} (inv' : Inv s')
    (others : ∀ i, i ≠ v → s'.loc i = s.loc i)
    (before : s.loc v = .store) (after : s'.loc v = .skip true) (word : s'.shared = 2) :
    HandOff s' ↔ (∀ i, s.loc i ≠ .wait) ∨ ∃ i, s.loc i = .grab := by
  have stored : Stored s' := ⟨v,after⟩
  have same : ∀ {pc}, pc ≠ .store → pc ≠ .skip true → ∀ i, s'.loc i = pc ↔ s.loc i = pc := by
    intro pc away gone i
    by_cases mine : i = v
    · rw [mine,before,after]
      exact ⟨fun is => absurd is.symm gone,fun is => absurd is.symm away⟩
    · rw [others i mine]
  constructor
  · intro hand'
    by_contra stuck
    simp only [not_or,not_forall,not_not,not_exists] at stuck
    obtain ⟨⟨i,waits⟩,none⟩ := stuck
    have none' : ∀ j, s'.loc j ≠ .grab := fun j late => none j ((same (by simp) (by simp) j).mp late)
    have waits' := (same (by simp) (by simp) i).mpr waits
    exact hand'.live stored none' i (spins_of_two word inv' stored none' waits')
  · intro free
    refine ⟨one_of_inv inv',fun _ => ⟨v,.inr (.inr after)⟩,?_⟩
    intro _ none i spins
    have waits : s'.loc i = .wait := spins [] s' rfl
    rcases free with nobody | ⟨j,late⟩
    · exact nobody i ((same (by simp) (by simp) i).mp waits)
    · exact none j ((same (by simp) (by simp) j).mpr late)

/-- A step keeps the promises exactly when it is `StepOk`. -/
theorem step_hand_off {s s' : Config (Fin n) Word Pc} {a : Fin n × Unit} (inv : Inv s) (hand : HandOff s)
    (moved : (boot n).step s a = some s') : HandOff s' ↔ StepOk s a := by
  have inv' := inv.step moved
  have one := one_of_inv inv'
  obtain ⟨moves,others,-⟩ := boot_step moved
  have back : ∀ {P : Pc → Prop}, ¬ P (s'.loc a.1) → (∃ i, P (s'.loc i)) → ∃ i, P (s.loc i) := fun away =>
    exists_of_others (fun i other => (others i other).symm) fun holds => absurd holds away
  have stays : ¬ (s.loc a.1 = .send ∨ s.loc a.1 = .store ∨ s.loc a.1 = .skip true) → Returned s → Returned s' := fun away =>
    exists_of_others (P := fun pc : Pc => pc = .send ∨ pc = .store ∨ pc = .skip true) others fun is => absurd is away
  generalize before : s.loc a.1 = pc,after : s'.loc a.1 = pc',word : s'.shared = w' at moves
  rw [StepOk,before]
  cases moves with
  | grab free | late taken =>
    refine ⟨fun _ => trivial,fun _ => ⟨one,fun out => ?_,fun _ _ i => not_spins (by rw [word]; rfl)⟩⟩
    exact stays (by rw [before]; simp) (hand.prompt (back (P := fun pc => pc = .skip false) (by rw [after]; simp) out))
  | fill_idt =>
    have early : ¬ Stored s := not_stored inv (i := a.1) (by rw [before]; rfl) (by rw [before]; simp)
    refine ⟨fun _ => trivial,fun _ => ⟨one,fun _ => ⟨a.1,.inl after⟩,fun stored => absurd ?_ early⟩⟩
    exact back (P := fun pc => pc = .skip true) (by rw [after]; simp) stored
  | send =>
    have early : ¬ Stored s := not_stored inv (i := a.1) (by rw [before]; rfl) (by rw [before]; simp)
    refine ⟨fun _ => trivial,fun _ => ⟨one,fun _ => ⟨a.1,.inr (.inl after)⟩,fun stored => absurd ?_ early⟩⟩
    exact back (P := fun pc => pc = .skip true) (by rw [after]; simp) stored
  | store => exact store_hand_off inv' others before after word
  | leave clear =>
    constructor
    · intro hand'
      have returned := hand'.prompt ⟨a.1,after⟩
      exact back (P := fun pc => pc = .send ∨ pc = .store ∨ pc = .skip true) (by rw [after]; simp) returned
    · intro returned
      refine ⟨one,?_,fun _ _ i => not_spins (by rw [word]; exact clear)⟩
      intro _
      exact stays (by rw [before]; simp) returned
  | spin set =>
    have same : s' = s := by
      obtain ⟨w',loc'⟩ := s'
      obtain ⟨w,loc⟩ := s
      simp only at word after before others
      rw [word,show loc' = loc from funext fun i => ?_]
      by_cases mine : i = a.1
      · rw [mine,after,before]
      · exact others i mine
    obtain ⟨-,zero | ⟨-,f,filler⟩⟩ := inv.taken ⟨a.1,by rw [before]; simp⟩
    · rw [zero] at set
      exact absurd rfl set
    · exact ⟨fun _ => ⟨f,.inr (.inr filler)⟩,fun _ => same ▸ hand⟩

/-- In a run the hand-off works exactly when every step is `StepOk`. -/
theorem hand_off {l : List (Config (Fin n) Word Pc × (Fin n × Unit))} {s : Config (Fin n) Word Pc}
    (run : Run (boot n) l s) :
    ((∀ x ∈ l, HandOff x.1) ∧ HandOff s) ↔ ∀ x ∈ l, StepOk x.1 x.2 := by
  have start : ∀ s, (boot n).init s → Inv s ∧ HandOff s := fun _ first => ⟨.start first,.start first⟩
  have decides : ∀ (s : Config (Fin n) Word Pc) a s', Inv s → True → HandOff s → (boot n).step s a = some s' →
      (HandOff s' ↔ StepOk s a) := fun _ _ _ inv _ hand moved => step_hand_off inv hand moved
  exact run.all_iff start (fun _ _ _ inv _ moved => inv.step moved) decides fun _ _ => trivial

/-- vCPU 1 tests the word after `fill_idt` has returned, and the filler stores after that. -/
theorem hand_off_late : ∃ (l : List (Config (Fin 2) Word Pc × (Fin 2 × Unit))) (s : Config (Fin 2) Word Pc),
    Run (boot 2) l s ∧ (s.loc 0 = .skip true ∧ s.loc 1 = .skip false) ∧ (∀ x ∈ l, HandOff x.1) ∧ HandOff s := by
  let P : Config (Fin 2) Word Pc → Bool := fun s => decide (s.loc 0 = .skip true ∧ s.loc 1 = .skip false)
  have ran : (exec ((boot 2).guard fun s a => decide (StepOk s a)) ⟨1,fun _ => .grab⟩
      [(0,()),(1,()),(0,()),(1,()),(0,()),(0,())]).any P = true := by decide +kernel
  obtain ⟨s,ran,out⟩ := (Option.any_eq_true _ _).mp ran
  obtain ⟨l,run,-⟩ := exec_run (.init rfl) ran
  obtain ⟨run,checked⟩ := run.of_guard
  exact ⟨l,s,run,of_decide_eq_true out,(hand_off run).mpr fun x member => of_decide_eq_true (checked x member)⟩

/-- vCPU 1 tests the word while vCPU 0 is in `fill_idt`: bit 1 is clear, and out it goes. -/
theorem waiter_early : ¬ ∀ s, Reachable (boot 2) s → HandOff s := by
  intro handsOff
  let P : Config (Fin 2) Word Pc → Bool := fun s => decide (s.loc 1 = .skip false) && !decide (Returned s)
  have ran : (exec (boot 2) ⟨1,fun _ => .grab⟩ [(0,()),(1,()),(1,())]).any P = true := by decide +kernel
  obtain ⟨s,reach,holds⟩ := exec_exists rfl (fun _ _ _ => trivial) ran
  simp only [P,Bool.and_eq_true,Bool.not_eq_true',decide_eq_true_eq,decide_eq_false_iff_not] at holds
  exact holds.2 ((handsOff s reach).prompt ⟨1,holds.1⟩)

end
end Bootcode.FillIdt
