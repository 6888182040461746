import Omulator.Core.Wiring

/-!
# The application's injector

No type that the rules name depends on itself, and all of them can be had once the rules are
installed. So whatever the application asks for, in whatever order, it is given an instance
or what a driver, a library or a constructor threw; and the injector deletes what it made in
an order in which nothing outlives what it was built with.
-/

namespace Omulator.Wiring
open Omulator.Lib Omulator.Di

section
variable {b : Build} {env : Environment}

theorem mem_arguments {r : Request} {l : List Request} : r ∈ b.arguments l ↔ r ∈ l :=
  (b.arguments_perm l).mem_iff

/-! ### Recipes -/

section
variable {T : Component} {start : ℕ}

theorem asks_nil (b : Build) (env : Environment) (T : Component) (start : ℕ) :
    asks b env T start [] = .new ∨ ∃ n, asks b env T start [] = .throw (.user n) := by
  unfold asks
  cases env.throws T 0 start with
  | none => exact Or.inl rfl
  | some n => exact Or.inr ⟨n, rfl⟩

def rest (b : Build) (env : Environment) (T : Component) (start : ℕ) (rs : List Request) :
    Outcome → Prog
  | .error e => .throw e
  | .ok _ => asks b env T start rs

theorem asks_cons (b : Build) (env : Environment) (T : Component) (start : ℕ) (r : Request)
    (rs : List Request) :
    (∃ n, asks b env T start (r :: rs) = .throw (.user n)) ∨
    (r.kind = .get ∧ asks b env T start (r :: rs) =
      .get (b.hash r.type) (rest b env T start rs)) ∨
    (r.kind = .creat ∧ asks b env T start (r :: rs) =
      .creat (b.hash r.type) (rest b env T start rs)) := by
  have hk : (fun o : Outcome => match o with
      | .error e => Prog.throw e
      | .ok _ => asks b env T start rs) = rest b env T start rs := by
    funext o
    cases o <;> rfl
  unfold asks
  cases env.throws T (rs.length + 1) start with
  | some n => exact Or.inl ⟨n, rfl⟩
  | none =>
    cases hr : r.kind with
    | get => exact Or.inr (Or.inl ⟨rfl, congrArg (Prog.get _) hk⟩)
    | creat => exact Or.inr (Or.inr ⟨rfl, congrArg (Prog.creat _) hk⟩)

theorem asks_fits {R : AList fun _ : Hash_t => Recipe} (l : List Request)
    (hl : ∀ r ∈ l, r.kind = .creat → Creatable b.ty R (b.hash r.type)) :
    (asks b env T start l).Fits b.ty R := by
  induction l with
  | nil =>
    rcases asks_nil b env T start with h | ⟨n, h⟩
    · rw [h]; trivial
    · rw [h]; exact ⟨n, rfl⟩
  | cons r rs ih =>
    have hrest := ih fun r' hr' => hl r' (List.mem_cons_of_mem _ hr')
    rcases asks_cons b env T start r rs with
      ⟨n, h⟩ | ⟨-, h⟩ | ⟨hr, h⟩
    · rw [h]; exact ⟨n, rfl⟩
    · rw [h]; exact ⟨fun _ => rfl, fun _ => hrest⟩
    · rw [h]; exact ⟨hl r (List.mem_cons_self ..) hr, fun _ => rfl, fun _ => hrest⟩

theorem asks_asks {U : Hash_t} (l : List Request) (h : (asks b env T start l).Asks U) :
    ∃ r ∈ l, b.hash r.type = U := by
  induction l with
  | nil =>
    rcases asks_nil b env T start with hn | ⟨n, hn⟩
    · rw [hn] at h; exact h.elim
    · rw [hn] at h; exact h.elim
  | cons r rs ih =>
    have hrest : (∃ o, (rest b env T start rs o).Asks U) → ∃ r' ∈ r :: rs, b.hash r'.type = U := by
      rintro ⟨o, ho⟩
      cases o with
      | error e => exact ho.elim
      | ok p =>
        obtain ⟨r', hr', hU⟩ := ih ho
        exact ⟨r', List.mem_cons_of_mem _ hr', hU⟩
    rcases asks_cons b env T start r rs with
      ⟨n, hn⟩ | ⟨-, hn⟩ | ⟨-, hn⟩
    · rw [hn] at h; exact h.elim
    · rw [hn] at h
      rcases h with h | h
      · exact ⟨r, List.mem_cons_self .., h⟩
      · exact hrest h
    · rw [hn] at h
      rcases h with h | h
      · exact ⟨r, List.mem_cons_self .., h⟩
      · exact hrest h

theorem asks_fresh (l : List Request) (S : Finset ℕ) : (asks b env T start l).Fresh S := by
  induction l generalizing S with
  | nil =>
    rcases asks_nil b env T start with h | ⟨n, h⟩ <;>
      rw [h] <;> trivial
  | cons r rs ih =>
    have hrest : ∀ (o : Outcome) (S : Finset ℕ), (rest b env T start rs o).Fresh S := by
      intro o S
      cases o with
      | error e => trivial
      | ok p => exact ih S
    rcases asks_cons b env T start r rs with
      ⟨n, h⟩ | ⟨-, h⟩ | ⟨-, h⟩
    · rw [h]; trivial
    · rw [h]; exact fun o => hrest o S
    · rw [h]; exact fun o => hrest o _

theorem asks_needs {U : Component} (l : List Request) (hU : ref U ∈ l) :
    (asks b env T start l).Needs (b.hash U) := by
  induction l with
  | nil => exact absurd hU (List.not_mem_nil)
  | cons r rs ih =>
    have hrest : ref U ∈ rs → ∀ o, (rest b env T start rs o).Needs (b.hash U) := by
      intro hmem o
      cases o with
      | error e => trivial
      | ok p => exact ih hmem
    rcases asks_cons b env T start r rs with
      ⟨n, h⟩ | ⟨-, h⟩ | ⟨hk, h⟩
    · rw [h]; trivial
    · rw [h]
      rcases List.mem_cons.mp hU with rfl | hmem
      · exact Or.inl ⟨rfl, fun _ => trivial⟩
      · exact Or.inr (hrest hmem)
    · rw [h]
      rcases List.mem_cons.mp hU with rfl | hmem
      · cases hk
      · exact hrest hmem

end

/-! ### What the rules ask for -/

/-- The length of the longest way down through the requests of the rules. -/
def Component.rank : Component → ℕ
  | .Injector | .SpdlogLogger | .Clock | .NullWindow | .Context => 0
  | .ILogger | .IClock => 1
  | .PropertyMap | .MessageQueueFactory | .SystemInfo => 2
  | .CLIParser | .MailboxRouter | .VkbInstance => 3
  | .InputHandler | .CLIInput | .Interpreter | .Instance => 4
  | .SystemWindow | .DebugUtilsMessengerEXT => 5
  | .IWindow => 6
  | .SurfaceKHR => 7
  | .VkbDevice => 8
  | .PhysicalDevice => 9
  | .Device => 10
  | .DeviceQueues_t | .Fence | .Semaphore | .Allocator => 11
  | .CommandPool | .Swapchain => 12
  | .CommandBuffers | .Pipeline => 13
  | .VulkanBackend => 14
  | .IGraphicsBackend => 15
  | .CoreGraphicsEngine => 16

/-- A rule that binds an interface, or makes a type of its own; what it asks for is further
down. -/
structure Rule.Good (b : Build) (rule : Rule) : Prop where
  bound : rule.target.isInterface = true ↔ ∃ impl, rule = .bindImpl rule.target impl
  down : ∀ start, ∀ r ∈ rule.requests b start, r.type.rank < rule.target.rank
  creat : ∀ start, ∀ r ∈ rule.requests b start, r.kind = .creat → r.type.isInterface = false

theorem Rule.Good.of_bindImpl {Interface Implementation : Component}
    (hI : Interface.isInterface = true) (hd : Implementation.rank < Interface.rank) :
    (Rule.bindImpl Interface Implementation).Good b where
  bound := ⟨fun _ => ⟨Implementation, rfl⟩, fun _ => hI⟩
  down start r hr := by
    rw [Rule.requests, List.mem_singleton] at hr
    exact hr ▸ hd
  creat start r hr hk := by
    rw [Rule.requests, List.mem_singleton] at hr
    rw [hr] at hk
    cases hk

theorem Rule.Good.of_recipe {T : Component} {rule : Rule} (l : List Request)
    (hrule : rule.target = T) (hI : T.isInterface = false) (hne : ∀ impl, rule ≠ .bindImpl T impl)
    (hsub : ∀ start, ∀ r ∈ rule.requests b start, r ∈ l)
    (hl : ∀ r ∈ l, r.type.rank < T.rank ∧ (r.kind = .creat → r.type.isInterface = false)) :
    rule.Good b where
  bound := by
    rw [hrule]
    constructor
    · intro h
      rw [hI] at h
      cases h
    · rintro ⟨impl, h⟩
      exact absurd h (hne impl)
  down start r hr := hrule ▸ (hl r (hsub start r hr)).1
  creat start r hr := (hl r (hsub start r hr)).2

theorem Rule.Good.of_addCtorRecipe {T : Component} {Ts : List Component} (l : List Request)
    (hI : T.isInterface = false) (hsub : ∀ r ∈ constructor b T, r ∈ l)
    (hl : ∀ r ∈ Ts.map ref ++ l,
      r.type.rank < T.rank ∧ (r.kind = .creat → r.type.isInterface = false)) :
    (Rule.addCtorRecipe T Ts).Good b := by
  refine .of_recipe (T := T) (Ts.map ref ++ l) rfl hI (by simp)
    (fun start r hr => ?_) hl
  rw [Rule.requests, List.mem_append, mem_arguments] at hr
  exact List.mem_append.mpr (hr.imp_right (hsub r))

theorem Rule.Good.of_addRecipe {T : Component} {recipe : ℕ → List Request} (l : List Request)
    (hI : T.isInterface = false) (hsub : ∀ start, ∀ r ∈ recipe start, r ∈ l)
    (hl : ∀ r ∈ l, r.type.rank < T.rank ∧ (r.kind = .creat → r.type.isInterface = false)) :
    (Rule.addRecipe T recipe).Good b :=
  .of_recipe (T := T) l rfl hI (by simp) hsub hl

theorem Rule.Good.of_ctor {T : Component} {Ts : List Component} (hI : T.isInterface = false)
    (hnone : constructor b T = []) (hTs : ∀ U ∈ Ts, U.rank < T.rank) :
    (Rule.addCtorRecipe T Ts).Good b := by
  refine .of_addCtorRecipe [] hI (by simp [hnone]) ?_
  intro r hr
  rw [List.append_nil, List.mem_map] at hr
  obtain ⟨U, hU, rfl⟩ := hr
  refine ⟨hTs U hU, ?_⟩
  intro hk
  cases hk

theorem minimalRules_good : ∀ rule ∈ minimalRules, rule.Good b := by
  simp only [minimalRules, List.forall_mem_cons]
  refine ⟨.of_bindImpl rfl (by decide), .of_ctor rfl rfl (by decide),
    .of_ctor rfl rfl (by decide), by simp⟩

theorem vk_rules_good : ∀ rule ∈ install_vk_initializer_rules b env, rule.Good b := by
  have hrecipe : ∀ {T : Component} (l : List Request), T.isInterface = false →
      (∀ r ∈ l, r.type.rank < T.rank ∧ (r.kind = .creat → r.type.isInterface = false)) →
      (Rule.addRecipe T fun _ => l).Good b := fun l hI hl =>
    .of_addRecipe l hI (fun _ _ hr => hr) hl
  have hargs : ∀ {T : Component} (l : List Request), T.isInterface = false →
      (∀ r ∈ l, r.type.rank < T.rank ∧ (r.kind = .creat → r.type.isInterface = false)) →
      (Rule.addRecipe T fun _ => b.arguments l).Good b := fun l hI hl =>
    .of_addRecipe l hI (fun _ _ hr => mem_arguments.mp hr) hl
  simp only [install_vk_initializer_rules, List.forall_mem_cons]
  refine ⟨hrecipe _ rfl (by decide), hrecipe _ rfl (by decide), hargs _ rfl (by decide),
    hargs _ rfl (by decide), hrecipe _ rfl (by decide), ?_, hargs _ rfl (by decide),
    hargs _ rfl (by decide), hrecipe _ rfl (by decide), hrecipe _ rfl (by decide),
    hrecipe _ rfl (by decide), hrecipe _ rfl (by decide), hrecipe _ rfl (by decide),
    .of_ctor rfl rfl (by decide), ?_, .of_ctor rfl rfl (by decide), ?_,
    .of_bindImpl rfl (by decide), by simp⟩
  · refine .of_addRecipe [ref .ILogger, ref .PropertyMap, ref .DebugUtilsMessengerEXT,
      ref .VkbInstance, ref .IWindow, ref .SurfaceKHR] rfl (fun start r hr => ?_) (by decide)
    unfold vkb_device_recipe at hr
    cases env.VKDEBUG start <;> cases b.NDEBUG <;> simp at hr <;> simp <;> tauto
  · exact .of_addCtorRecipe [ref .VkbDevice] rfl (fun _ hr => hr) (by decide)
  · refine .of_addCtorRecipe [ref .VkbDevice, ref .CommandBuffers, value .Fence,
      value .Semaphore, ref .PropertyMap] rfl (fun r hr => ?_) (by decide)
    simp [constructor, NUM_FRAMES_IN_FLIGHT, mem_arguments] at hr
    simp
    tauto

theorem defaultRules_good : ∀ rule ∈ defaultRules b env, rule.Good b := by
  intro rule h
  rw [defaultRules, List.mem_append, List.mem_append] at h
  rcases h with (h | h) | h
  · revert rule
    simp only [List.forall_mem_cons]
    refine ⟨.of_ctor rfl rfl (by decide), .of_ctor rfl rfl (by decide),
      .of_ctor rfl rfl (by decide), ?_, ?_, .of_ctor rfl rfl (by decide), by simp⟩
    · refine .of_addCtorRecipe [ref .ILogger, ref .MailboxRouter] rfl (fun r hr => ?_)
        (by decide)
      simp [constructor, mem_arguments] at hr
      simp
      tauto
    · refine .of_addCtorRecipe [ref .ILogger, ref .MailboxRouter, ref .IGraphicsBackend] rfl
        (fun r hr => ?_) (by decide)
      simp [constructor, mem_arguments] at hr
      simp
      tauto
  · exact vk_rules_good rule h
  · rw [List.mem_singleton] at h
    exact h ▸ .of_bindImpl rfl (by decide)

theorem windowRules_good : ∀ rule ∈ windowRules env, rule.Good b := by
  simp only [windowRules, List.forall_mem_cons]
  refine ⟨.of_bindImpl rfl ?_, ?_, by simp⟩
  · cases env.HEADLESS <;> decide
  · exact .of_addRecipe [ref .ILogger] rfl (fun _ _ hr => hr) (by decide)

theorem allRules_good (env : Environment) : ∀ rule ∈ allRules b env, rule.Good b := by
  intro rule h
  rw [allRules, List.mem_append, List.mem_append] at h
  rcases h with (h | h) | h
  · exact minimalRules_good rule h
  · exact defaultRules_good rule h
  · exact windowRules_good rule h

/-! ### The recipes in the map -/

/-- The map holds the recipe every injector starts with, and those of `rules`. -/
structure Lists (b : Build) (env : Environment) (rules : List Rule)
    (R : AList fun _ : Hash_t => Recipe) : Prop where
  known : ∀ T r, R.lookup T = some r → T = injectorHash ∧ r = .child ∨
    ∃ rule ∈ rules, T = b.hash rule.target ∧ r = rule.recipe b env
  listed : ∀ rule ∈ rules, R.lookup (b.hash rule.target) = some (rule.recipe b env)
  child : R.lookup injectorHash = some .child

theorem lists_root : Lists b env [] (World.root.inj 0).recipeMap_ :=
  ⟨fun _ _ h => Or.inl (Injector.construct_recipe h), by simp, rfl⟩

section
variable {rules : List Rule} {R : AList fun _ : Hash_t => Recipe} {T U : Component}

theorem Lists.insert (h : Lists b env rules R) {rule : Rule}
    (hnew : rule.target ∉ rules.map Rule.target) (hself : rule.target ≠ .Injector) :
    Lists b env (rules ++ [rule]) (R.insert (b.hash rule.target) (rule.recipe b env)) := by
  refine ⟨?_, ?_, ?_⟩
  · intro T r hl
    by_cases hT : T = b.hash rule.target
    · subst hT
      rw [AList.lookup_insert] at hl
      exact Or.inr ⟨rule, by simp, rfl, (Option.some.inj hl).symm⟩
    · rw [AList.lookup_insert_ne hT] at hl
      refine (h.known T r hl).imp_right ?_
      rintro ⟨rule', hmem, hr⟩
      exact ⟨rule', List.mem_append_left _ hmem, hr⟩
  · intro rule' hmem
    rcases List.mem_append.mp hmem with hmem | hmem
    · have hne : b.hash rule'.target ≠ b.hash rule.target := by
        intro he
        rw [← b.hash_injective he] at hnew
        exact hnew (List.mem_map_of_mem hmem)
      rw [AList.lookup_insert_ne hne]
      exact h.listed rule' hmem
    · rw [List.mem_singleton.mp hmem, AList.lookup_insert]
  · have hne : injectorHash ≠ b.hash rule.target := by
      rw [← b.hash_injector]
      exact fun he => hself (b.hash_injective he).symm
    rw [AList.lookup_insert_ne hne]
    exact h.child

theorem Lists.rule (h : Lists b env rules R) {r : Recipe} (hl : R.lookup (b.hash T) = some r) :
    T = .Injector ∧ r = .child ∨ ∃ rule ∈ rules, rule.target = T ∧ r = rule.recipe b env := by
  rcases h.known _ r hl with ⟨hT, hr⟩ | ⟨rule, hmem, hT, hr⟩
  · rw [← b.hash_injector] at hT
    exact Or.inl ⟨b.hash_injective hT, hr⟩
  · exact Or.inr ⟨rule, hmem, (b.hash_injective hT).symm, hr⟩

theorem Rule.Good.recipe_cases {rule : Rule} (h : rule.Good b) (env : Environment) :
    (rule.target.isInterface = true ∧ ∃ impl, rule = .bindImpl rule.target impl ∧
      rule.recipe b env = .bind (b.hash impl)) ∨
    rule.target.isInterface = false ∧ rule.recipe b env =
      .fn fun start => asks b env rule.target start (rule.requests b start) := by
  by_cases hb : ∃ impl, rule = .bindImpl rule.target impl
  · obtain ⟨impl, hr⟩ := hb
    refine Or.inl ⟨h.bound.mpr ⟨impl, hr⟩, impl, hr, ?_⟩
    rw [hr]
    rfl
  · refine Or.inr ⟨?_, Rule.recipe_fn b env fun impl hr => hb ⟨impl, hr⟩⟩
    exact Bool.eq_false_of_not_eq_true fun hI => hb (h.bound.mp hI)

theorem Lists.creatable (h : Lists b env rules R) (hgood : ∀ rule ∈ rules, rule.Good b)
    (hT : T.isInterface = false) : Creatable b.ty R (b.hash T) := by
  refine ⟨by rw [b.abstract_iff, hT], fun impl hl => ?_⟩
  rcases h.rule hl with ⟨_, hr⟩ | ⟨rule, hmem, rfl, hr⟩
  · cases hr
  · rcases (hgood rule hmem).recipe_cases env with ⟨hI, _⟩ | ⟨_, hf⟩
    · rw [hT] at hI
      cases hI
    · cases hr.trans hf

theorem Lists.admissible (h : Lists b env rules R) (hgood : ∀ rule ∈ rules, rule.Good b) :
    Admissible b.ty R := by
  have hfn : ∀ T body, R.lookup T = some (.fn body) → ∃ rule ∈ rules,
      T = b.hash rule.target ∧ rule.target.isInterface = false ∧
        body = fun start => asks b env rule.target start (rule.requests b start) := by
    intro T body hl
    rcases h.known T _ hl with ⟨_, hr⟩ | ⟨rule, hmem, hT, hr⟩
    · cases hr
    · rcases (hgood rule hmem).recipe_cases env with ⟨_, impl, _, hb⟩ | ⟨hI, hf⟩
      · cases hr.trans hb
      · exact ⟨rule, hmem, hT, hI, Recipe.fn.inj (hr.trans hf)⟩
  refine ⟨fun T body hl m => ?_, fun T body hl => ?_, fun T hl => ?_⟩
  · obtain ⟨rule, hmem, _, _, rfl⟩ := hfn T body hl
    exact asks_fits _ fun r hr hk => h.creatable hgood ((hgood rule hmem).creat m r hr hk)
  · obtain ⟨rule, _, rfl, hI, _⟩ := hfn T body hl
    rw [b.abstract_iff, hI]
  · rcases h.known T _ hl with ⟨rfl, _⟩ | ⟨rule, hmem, _, hr⟩
    · exact b.ty.injector_concrete
    · rcases (hgood rule hmem).recipe_cases env with ⟨_, impl, _, hb⟩ | ⟨_, hf⟩
      · cases hr.trans hb
      · cases hr.trans hf

theorem Lists.requests (h : Lists b env rules R) (hgood : ∀ rule ∈ rules, rule.Good b)
    {X Y : Hash_t} (hr : Requests R X Y) : ∃ rule ∈ rules, X = b.hash rule.target ∧
      ∃ start, ∃ r ∈ rule.requests b start, Y = b.hash r.type := by
  unfold Requests at hr
  cases hl : R.lookup X with
  | none =>
    rw [hl] at hr
    exact hr.elim
  | some recipe =>
    rw [hl] at hr
    rcases h.known X _ hl with ⟨_, rfl⟩ | ⟨rule, hmem, hX, rfl⟩
    · exact hr.elim
    · refine ⟨rule, hmem, hX, ?_⟩
      rcases (hgood rule hmem).recipe_cases env with ⟨_, impl, hrule, hb⟩ | ⟨_, hf⟩
      · rw [hb] at hr
        refine ⟨0, ref impl, ?_, hr.symm⟩
        rw [hrule]
        exact List.mem_singleton_self _
      · rw [hf] at hr
        obtain ⟨m, hm⟩ := hr
        obtain ⟨r, hmem', hY⟩ := asks_asks _ hm
        exact ⟨m, r, hmem', hY.symm⟩

theorem Lists.acyclic (h : Lists b env rules R) (hgood : ∀ rule ∈ rules, rule.Good b)
    (X : Hash_t) : ¬ Cyclic R X := by
  have hdown : ∀ Y, Relation.TransGen (Requests R) X Y → ∃ T U : Component, X = b.hash T ∧
      Y = b.hash U ∧ U.rank < T.rank := by
    intro Y hY
    induction hY with
    | single hr =>
      obtain ⟨rule, hmem, hX, start, r, hr, hY⟩ := h.requests hgood hr
      exact ⟨_, _, hX, hY, (hgood rule hmem).down start r hr⟩
    | tail _ hr ih =>
      obtain ⟨T, U, hX, hV, hlt⟩ := ih
      obtain ⟨rule, hmem, hV', start, r, hr, hY⟩ := h.requests hgood hr
      have hU : U = rule.target := b.hash_injective (hV.symm.trans hV')
      exact ⟨T, _, hX, hY, ((hgood rule hmem).down start r hr).trans (hU ▸ hlt)⟩
  intro hc
  obtain ⟨T, U, hT, hU, hlt⟩ := hdown X hc
  rw [b.hash_injective (hU.symm.trans hT)] at hlt
  exact Nat.lt_irrefl _ hlt

structure Supplied (b : Build) (rules : List Rule) (C : Component → Prop) : Prop where
  closed : ∀ rule ∈ rules, C rule.target → ∀ start, ∀ r ∈ rule.requests b start, C r.type
  made : ∀ T, C T → T = .Injector ∨ T.isPlain = true ∨ T ∈ rules.map Rule.target

theorem Component.isPlain_concrete (h : T.isPlain = true) : T.isInterface = false := by
  revert h
  cases T <;> decide

theorem Lists.leadsTo (h : Lists b env rules R) (hgood : ∀ rule ∈ rules, rule.Good b)
    {C : Component → Prop} (hC : Supplied b rules C) (hT : C T) {X : Hash_t}
    (hX : LeadsTo R (b.hash T) X) : ∃ U, C U ∧ X = b.hash U := by
  induction hX with
  | refl => exact ⟨T, hT, rfl⟩
  | tail _ hr ih =>
    obtain ⟨U, hU, rfl⟩ := ih
    obtain ⟨rule, hmem, hV, start, r, hr, hY⟩ := h.requests hgood hr
    rw [b.hash_injective hV] at hU
    exact ⟨r.type, hC.closed rule hmem hU start r hr, hY⟩

theorem Lists.complete (h : Lists b env rules R) (hgood : ∀ rule ∈ rules, rule.Good b)
    {C : Component → Prop} (hC : Supplied b rules C) (hT : C T) :
    Complete b.ty R (b.hash T) := by
  refine ⟨fun X _ => h.acyclic hgood X, fun X hX hnone => ?_⟩
  obtain ⟨U, hU, rfl⟩ := h.leadsTo hgood hC hT hX
  rcases hC.made U hU with rfl | hplain | hmem
  · rw [b.hash_injector] at hnone
    cases h.child.symm.trans hnone
  · exact ⟨(b.abstract_iff U).trans (Component.isPlain_concrete hplain), b.plain U hplain⟩
  · obtain ⟨rule, hr, rfl⟩ := List.mem_map.mp hmem
    cases (h.listed rule hr).symm.trans hnone

end

/-! ### Installing the rules, and asking -/

/-- `rules` are installed, nothing has been thrown, and the root has instances of types of `K`
only. -/
structure SetUp (b : Build) (env : Environment) (rules : List Rule) (K : Component → Prop)
    (w : World) : Prop where
  lists : Lists b env rules (w.inj 0).recipeMap_
  stocked : Stocked (w.inj 0).recipeMap_ w
  idle : w.Idle
  live : Live b.ty 0 w
  wired : Wired (w.inj 0).recipeMap_ w
  has : ∀ X c, (w.inj 0).typeMap_.lookup X = some c → ∃ T, K T ∧ X = b.hash T

theorem setUp_root (b : Build) (env : Environment) : SetUp b env [] (· = .Injector) World.root where
  lists := lists_root
  stocked := by
    obtain ⟨⟨R, hR⟩, _⟩ := root_sound
    rw [hR.recipes]
    exact hR
  idle := root_sound.2
  live := ⟨root_inv b.ty, Nat.zero_lt_one, by simp [Dead, World.root]⟩
  wired := root_wired
  has X c h := ⟨.Injector, rfl, (Injector.construct_entry h).1.trans b.hash_injector.symm⟩

section
variable {rules : List Rule} {K : Component → Prop} {w : World} {T : Component}

theorem SetUp.add (h : SetUp b env rules K w) {rule : Rule}
    (hnew : rule.target ∉ rules.map Rule.target) (hself : rule.target ≠ .Injector)
    (hK : ¬ K rule.target) : SetUp b env (rules ++ [rule]) K (rule.add b env w) := by
  rw [Rule.add_eq]
  have hinj : (w.insertRecipe 0 (b.hash rule.target) (rule.recipe b env)).inj 0 =
      { w.inj 0 with recipeMap_ :=
        (w.inj 0).recipeMap_.insert (b.hash rule.target) (rule.recipe b env) } := by
    rw [insertRecipe_inj, if_pos rfl]
  have hnone : (w.inj 0).typeMap_.lookup (b.hash rule.target) = none := by
    cases hl : (w.inj 0).typeMap_.lookup (b.hash rule.target) with
    | none => rfl
    | some c =>
      obtain ⟨T, hT, he⟩ := h.has _ c hl
      rw [b.hash_injective he] at hK
      exact absurd hT hK
  have hfresh : (∃ impl, rule.recipe b env = .bind impl) ∨
      ∃ body, rule.recipe b env = .fn body ∧ ∀ m, (body m).Fresh ∅ := by
    cases rule with
    | bindImpl T impl => exact Or.inl ⟨_, rfl⟩
    | addCtorRecipe T Ts => exact Or.inr ⟨_, rfl, fun m => asks_fresh _ ∅⟩
    | addRecipe T recipe => exact Or.inr ⟨_, rfl, fun m => asks_fresh _ ∅⟩
  obtain ⟨seg, hmute⟩ := insertRecipe_mute w 0 (b.hash rule.target) _ hfresh
  have hroot := insertRecipe_rooted h.stocked.toRooted (b.hash rule.target) (rule.recipe b env)
  refine ⟨?_, ⟨?_, ?_⟩, ?_, ⟨h.live.inv.mute hmute, ?_, ?_⟩, ?_, ?_⟩
  · rw [hinj]
    exact h.lists.insert hnew hself
  · rw [hinj]
    exact hroot
  · rw [hinj]
    exact h.stocked.nonNull
  · exact insertRecipe_idle h.idle _ _
  · exact hmute.count ▸ h.live.lt
  · intro hd
    rw [Dead, hmute.trace] at hd
    rcases List.mem_append.mp hd with hd | hd
    · exact h.live.live hd
    · obtain ⟨n, _, hn, _⟩ := hmute.destroyed _ hd
      cases hn
  · rw [hinj]
    exact insertRecipe_wired h.wired _ _ hnone
  · rw [hinj]
    exact h.has

theorem SetUp.addAll (h : SetUp b env rules K w) (more : List Rule)
    (hnew : ((rules ++ more).map Rule.target).Nodup)
    (hself : ∀ rule ∈ more, rule.target ≠ .Injector) (hK : ∀ rule ∈ more, ¬ K rule.target) :
    SetUp b env (rules ++ more) K (addAll b env more w) := by
  induction more generalizing rules w with
  | nil =>
    rw [List.append_nil]
    exact h
  | cons rule more ih =>
    have hcons : rules ++ rule :: more = (rules ++ [rule]) ++ more := by simp
    have hmem : rule ∈ rule :: more := List.mem_cons_self ..
    have hrule : rule.target ∉ rules.map Rule.target := by
      intro hm
      rw [List.map_append, List.nodup_append] at hnew
      exact hnew.2.2 _ hm _ (List.mem_map_of_mem hmem) rfl
    have hnext := h.add hrule (hself rule hmem) (hK rule hmem)
    rw [hcons] at hnew ⊢
    exact ih hnext hnew (fun r hr => hself r (List.mem_cons_of_mem _ hr))
      fun r hr => hK r (List.mem_cons_of_mem _ hr)

theorem SetUp.call (h : SetUp b env rules K w) (hgood : ∀ rule ∈ rules, rule.Good b)
    {C : Component → Prop} (hC : Supplied b rules C) (kind : Kind) (hT : C T)
    (hk : kind = .creat → T.isInterface = false) :
    (∃ a w', w.call b.ty ⟨kind, 0, b.hash T⟩ = (.ok (some a), w') ∧
      SetUp b env rules (fun U => K U ∨ C U) w') ∨
    ∃ n, (w.call b.ty ⟨kind, 0, b.hash T⟩).1 = .error (.user n) := by
  have hadm := h.lists.admissible hgood
  rcases call_complete h.stocked h.idle hadm kind (h.lists.complete hgood hC hT)
    fun hkind => h.lists.creatable hgood (hk hkind) with ⟨a, hr, hS, hidle⟩ | hthrow
  · refine Or.inl ⟨a, (w.call b.ty ⟨kind, 0, b.hash T⟩).2, Prod.ext hr rfl, ?_⟩
    have hrec := hS.recipes
    have hlive := (call_kept (c := ⟨kind, 0, b.hash T⟩) h.live).live h.live
    have hwired := call_wired b.ty h.stocked.toRooted h.wired kind (b.hash T)
    have hconf := (call_leads h.stocked.toRooted hadm kind (b.hash T)).spares
    refine ⟨hrec ▸ h.lists, hrec ▸ hS, hidle, hlive, hrec ▸ hwired, fun X c hl => ?_⟩
    by_cases hX : LeadsTo (w.inj 0).recipeMap_ (b.hash T) X
    · obtain ⟨U, hU, rfl⟩ := h.lists.leadsTo hgood hC hT hX
      exact ⟨U, Or.inr hU, rfl⟩
    · rw [hconf X hX] at hl
      obtain ⟨U, hU, rfl⟩ := h.has X c hl
      exact ⟨U, Or.inl hU, rfl⟩
  · exact Or.inr hthrow

end

/-! ### The start of the application -/

/-- What `installDefaultRules` adds rules for. -/
def defaultTargets : List Component :=
  [.MailboxRouter, .SystemWindow, .InputHandler, .Interpreter, .CoreGraphicsEngine, .CLIInput,
    .SystemInfo, .VkbInstance, .Instance, .DebugUtilsMessengerEXT, .SurfaceKHR, .VkbDevice,
    .PhysicalDevice, .Device, .DeviceQueues_t, .CommandPool, .CommandBuffers, .Fence, .Semaphore,
    .Allocator, .Swapchain, .Pipeline, .VulkanBackend, .IGraphicsBackend, .IClock]

theorem defaultRules_targets : (defaultRules b env).map Rule.target = defaultTargets := rfl

theorem windowRules_targets :
    (windowRules env).map Rule.target = [.IWindow, .MessageQueueFactory] := rfl

theorem allRules_targets : (allRules b env).map Rule.target =
    [.ILogger, .PropertyMap, .CLIParser] ++ defaultTargets ++ [.IWindow, .MessageQueueFactory] :=
  rfl

theorem allRules_nodup (b : Build) (env : Environment) :
    ((allRules b env).map Rule.target).Nodup := by
  rw [allRules_targets]
  decide

theorem allRules_supplied : Supplied b (allRules b env) fun _ => True where
  closed _ _ _ _ _ _ := trivial
  made T _ := by
    rw [allRules_targets]
    cases T <;> decide

/-- What the command line parser needs. -/
def Early (T : Component) : Prop :=
  T ∈ [.Injector, .ILogger, .SpdlogLogger, .PropertyMap, .CLIParser]

instance (T : Component) : Decidable (Early T) := inferInstanceAs (Decidable (T ∈ _))

theorem minimalRules_supplied : Supplied b minimalRules Early where
  closed := by
    have hctor : ∀ (T : Component) (Ts : List Component), constructor b T = [] →
        (∀ U ∈ Ts, Early U) → ∀ start : ℕ, ∀ r ∈ (Rule.addCtorRecipe T Ts).requests b start,
          Early r.type := by
      intro T Ts hnone hTs start r hr
      rw [Rule.requests, hnone, List.append_nil, mem_arguments, List.mem_map] at hr
      obtain ⟨U, hU, rfl⟩ := hr
      exact hTs U hU
    simp only [minimalRules, List.forall_mem_cons]
    refine ⟨fun _ start r hr => ?_, fun _ => hctor _ _ rfl (by decide),
      fun _ => hctor _ _ rfl (by decide), by simp⟩
    rw [List.mem_singleton.mp hr]
    decide
  made T hT := by
    revert hT
    cases T <;> decide

theorem Supplied.append {rules more : List Rule} {C : Component → Prop}
    (h : Supplied b rules C) (hmore : ∀ rule ∈ more, ¬ C rule.target) :
    Supplied b (rules ++ more) C where
  closed rule hmem hC := by
    rcases List.mem_append.mp hmem with hmem | hmem
    · exact h.closed rule hmem hC
    · exact absurd hC (hmore rule hmem)
  made T hT := by
    refine (h.made T hT).imp_right (Or.imp_right fun hmem => ?_)
    rw [List.map_append]
    exact List.mem_append_left _ hmem

theorem SetUp.mono {rules : List Rule} {K L : Component → Prop} {w : World}
    (h : SetUp b env rules L w) (hK : ∀ T, L T → K T) : SetUp b env rules K w :=
  { h with
    has := fun X c hl => by
      obtain ⟨T, hT, hX⟩ := h.has X c hl
      exact ⟨T, hK T hT, hX⟩ }

theorem not_early_of_targets {rules : List Rule} {Ts : List Component}
    (h : rules.map Rule.target = Ts) (hTs : ∀ T ∈ Ts, ¬ Early T) :
    ∀ rule ∈ rules, ¬ Early rule.target := by
  intro rule hmem
  exact hTs _ (h ▸ List.mem_map_of_mem hmem)

theorem defaultRules_late : ∀ rule ∈ defaultRules b env, ¬ Early rule.target :=
  not_early_of_targets defaultRules_targets (by decide)

theorem windowRules_late : ∀ rule ∈ windowRules env, ¬ Early rule.target :=
  not_early_of_targets windowRules_targets (by decide)

/-- The application starts with all rules installed, or with what was thrown. -/
theorem boot_setUp (b : Build) (env : Environment) : (∃ a w, boot b env = (.ok (some a), w) ∧
      SetUp b env (allRules b env) Early w) ∨
    ∃ n, (boot b env).1 = .error (.user n) := by
  have hnodup := allRules_nodup b env
  have hnodup₂ : ((minimalRules ++ defaultRules b env).map Rule.target).Nodup := by
    rw [allRules, List.map_append] at hnodup
    exact hnodup.of_append_left
  have hnodup₁ : (([] ++ minimalRules).map Rule.target).Nodup := by
    rw [List.map_append] at hnodup₂
    exact hnodup₂.of_append_left
  have hself : ∀ T, ¬ Early T → T ≠ .Injector := by
    rintro T hT rfl
    exact hT (by decide)
  have hmin := (setUp_root b env).addAll minimalRules hnodup₁ (by decide) (by decide)
  rw [List.nil_append] at hmin
  unfold boot installMinimalRules
  rcases hmin.call minimalRules_good minimalRules_supplied .get (T := .CLIParser) (by decide)
    (by simp) with ⟨a, w, hr, hw⟩ | ⟨n, hr⟩
  · rw [hr]
    have hearly : SetUp b env minimalRules Early w := hw.mono fun T hT => by
      rcases hT with rfl | hT
      · decide
      · exact hT
    have hdef := hearly.addAll (defaultRules b env) hnodup₂
      (fun r hr => hself _ (defaultRules_late r hr)) defaultRules_late
    have hgood : ∀ rule ∈ minimalRules ++ defaultRules b env, rule.Good b := fun rule hmem =>
      allRules_good env rule (List.mem_append_left _ hmem)
    dsimp only
    unfold installDefaultRules
    rcases hdef.call hgood (minimalRules_supplied.append defaultRules_late) .get
      (T := .PropertyMap) (by decide) (by simp) with ⟨a', w', hr', hw'⟩ | ⟨n, hr'⟩
    · rw [hr']
      have hearly' := (hw'.mono (K := Early) (by simp)).addAll (windowRules env) hnodup
        (fun r hr => hself _ (windowRules_late r hr)) windowRules_late
      exact Or.inl ⟨a', _, rfl, hearly'⟩
    · right
      refine ⟨n, ?_⟩
      generalize (addAll b env (defaultRules b env) w).call b.ty
        ⟨.get, 0, b.hash .PropertyMap⟩ = x at hr'
      obtain ⟨r, u⟩ := x
      cases hr'
      rfl
  · right
    refine ⟨n, ?_⟩
    generalize (addAll b env minimalRules World.root).call b.ty ⟨.get, 0, b.hash .CLIParser⟩ = x
      at hr
    obtain ⟨r, u⟩ := x
    cases hr
    rfl

/-! ### Everything the application asks for -/

abbrev Running (b : Build) (env : Environment) (w : World) : Prop :=
  SetUp b env (allRules b env) (fun _ => True) w

theorem running_call {w : World} (h : Running b env w) {r : Request}
    (hr : r.kind = .creat → r.type.isInterface = false) :
    (∃ a w', w.call b.ty ⟨r.kind, 0, b.hash r.type⟩ = (.ok (some a), w') ∧ Running b env w') ∨
    ∃ n, (w.call b.ty ⟨r.kind, 0, b.hash r.type⟩).1 = .error (.user n) := by
  refine (h.call (allRules_good env) allRules_supplied r.kind trivial hr).imp_left ?_
  rintro ⟨a, w', he, hw'⟩
  exact ⟨a, w', he, hw'.mono fun _ _ => trivial⟩

theorem askStep_running {w w' : World} {r : Request} (h : Running b env w)
    (hs : askStep b w r w') : Running b env w' := by
  obtain ⟨hr, p, hp⟩ := hs
  rcases running_call h hr with ⟨a, u, he, hu⟩ | ⟨n, hn⟩
  · rw [hp] at he
    cases he
    exact hu
  · rw [hp] at hn
    cases hn

theorem session_running {p : Option Addr} {w₀ w : World} (hboot : boot b env = (.ok p, w₀))
    (hrun : Run (askStep b) w₀ w) : Running b env w := by
  have hstart : Running b env w₀ := by
    rcases boot_setUp b env with ⟨a, u, he, hu⟩ | ⟨n, hn⟩
    · rw [hboot] at he
      cases he
      exact hu.mono fun _ _ => trivial
    · rw [hboot] at hn
      cases hn
  exact hrun.invariant (Running b env) hstart fun _ _ _ ht _ hs => askStep_running ht hs

/-- In every build and configuration, whatever the application asks its injector for after
requests of which none has thrown, in whatever order, it is given an instance, or what a recipe or
a constructor threw; the same holds of what it asks for while the rules are being installed. -/
theorem application_resolves (b : Build) (env : Environment) :
    (∀ e, (boot b env).1 = .error e → ∃ n, e = .user n) ∧
    ∀ p w₀ w, boot b env = (.ok p, w₀) → Run (askStep b) w₀ w →
      ∀ r : Request, (r.kind = .creat → r.type.isInterface = false) →
        (∃ a, (w.call b.ty ⟨r.kind, 0, b.hash r.type⟩).1 = .ok (some a)) ∨
        ∃ n, (w.call b.ty ⟨r.kind, 0, b.hash r.type⟩).1 = .error (.user n) := by
  constructor
  · intro e he
    rcases boot_setUp b env with ⟨a, u, hok, _⟩ | ⟨n, hn⟩
    · rw [hok] at he
      cases he
    · rw [hn] at he
      cases he
      exact ⟨n, rfl⟩
  · intro p w₀ w hboot hrun r hr
    refine (running_call (session_running hboot hrun) hr).imp_left ?_
    rintro ⟨a, w', he, _⟩
    exact ⟨a, by rw [he]⟩

def Component.ofIdx (n : ℕ) : Component :=
  [.Injector, .ILogger, .SpdlogLogger, .PropertyMap, .CLIParser, .MailboxRouter,
    .MessageQueueFactory, .IWindow, .SystemWindow, .NullWindow, .InputHandler, .Interpreter,
    .CoreGraphicsEngine, .CLIInput, .IClock, .Clock, .SystemInfo, .VkbInstance, .VkbDevice,
    .Context, .Instance, .DebugUtilsMessengerEXT, .SurfaceKHR, .PhysicalDevice, .Device,
    .CommandPool, .CommandBuffers, .Fence, .Semaphore, .DeviceQueues_t, .Allocator, .Swapchain,
    .Pipeline, .VulkanBackend, .IGraphicsBackend].getD n .Injector

def debugBuild : Build where
  ty := ⟨fun X => (Component.ofIdx X).isInterface, fun _ => true, fun _ _ => none, rfl⟩
  hash T := T.ctorIdx
  hash_injective := Function.LeftInverse.injective (g := Component.ofIdx) fun T => by
    cases T <;> rfl
  hash_injector := rfl
  abstract_iff T := by cases T <;> rfl
  plain _ _ := rfl
  NDEBUG := false
  arguments := id
  arguments_perm _ := .refl _

/-- `--vkdebug`, and nothing fails. -/
def debugRun : Environment := ⟨false, fun _ => true, fun _ _ _ => none⟩

def started : World := (boot debugBuild debugRun).2

theorem eq_of_fst {α β : Type} {x : α × β} {r : α} (h : x.1 = r) : x = (r, x.2) := by
  rw [← h]

theorem started_boot : boot debugBuild debugRun = (.ok (some (.obj 1)), started) :=
  eq_of_fst (by decide +kernel)

def getEngine : Outcome × World :=
  started.call debugBuild.ty ⟨.get, 0, debugBuild.hash .CoreGraphicsEngine⟩

theorem getEngine_ok : getEngine.1 = .ok (some (.obj 32)) := by decide +kernel

/-- The graphics engine is there, with all that it needs. -/
theorem started_resolves : ∃ a, getEngine.1 = .ok (some a) := by
  rcases (application_resolves debugBuild debugRun).2 _ _ _ started_boot .start
    (ref .CoreGraphicsEngine) (by simp) with h | ⟨n, hn⟩
  · exact h
  · cases getEngine_ok.symm.trans hn

/-! ### The end of the application -/

/-- Whenever the recipe of `T` returns, it has got `U`. -/
def DependsOn (b : Build) (env : Environment) (T U : Component) : Prop :=
  ∃ rule ∈ allRules b env, rule.target = T ∧ ∀ start, ref U ∈ rule.requests b start

theorem dependsOn_rests {rules : List Rule} {R : AList fun _ : Hash_t => Recipe} {T U : Component}
    (h : Lists b env rules R) (hgood : ∀ rule ∈ rules, rule.Good b)
    (hd : ∃ rule ∈ rules, rule.target = T ∧ ∀ start, ref U ∈ rule.requests b start) :
    Rests R (b.hash T) (b.hash U) := by
  obtain ⟨rule, hmem, rfl, hU⟩ := hd
  have hl := h.listed rule hmem
  rcases (hgood rule hmem).recipe_cases env with ⟨_, impl, hrule, hb⟩ | ⟨_, hf⟩
  · have himpl := hU 0
    rw [hrule] at himpl
    cases List.mem_singleton.mp himpl
    exact Or.inr (hl.trans (congrArg some hb))
  · exact Or.inl ⟨_, hl.trans (congrArg some hf), fun m => asks_needs _ (hU m)⟩

theorem transGen_rests {R : AList fun _ : Hash_t => Recipe} {T U : Component}
    (h : Lists b env (allRules b env) R) (hd : Relation.TransGen (DependsOn b env) T U) :
    Relation.TransGen (Rests R) (b.hash T) (b.hash U) := by
  induction hd with
  | single hs => exact .single (dependsOn_rests h (allRules_good env) hs)
  | tail _ hs ih => exact ih.tail (dependsOn_rests h (allRules_good env) hs)

theorem destroyed_of_has {w : World} {X : Hash_t} {c : TypeContainer} {d : Addr}
    (hroot : (w.inj 0).pUpstream_ = none) (hlive : Live b.ty 0 w)
    (hkids : ∀ j, j < w.count → (w.inj j).pUpstream_ = some 0 → Dead w j)
    (hl : (w.inj 0).typeMap_.lookup X = some c) (hd : c.ptr_ = some d) :
    .destroyed d ∈ (w.destroyInjector 0).trace := by
  have hself : ∀ j, Anc w j 0 → j = 0 := by
    intro j hj
    cases hj with
    | self => rfl
    | up hp _ =>
      rw [hroot] at hp
      cases hp
  have hdead : Dead (w.destroyInjector 0) 0 := by
    unfold World.destroyInjector Dead
    simp
  rcases hlive.inv.home 0 X c d hlive.lt hlive.live hl hd with ⟨k, rfl, hk⟩ | ⟨j, K, hj, hm⟩
  · rw [hself k hk]
    exact hdead
  · rw [hself j hj] at hm
    have hinv := hlive.inv.destroy hlive.lt hlive.live hkids
    have hm' := manages_append (destroyInjector_frees hlive.inv hlive.lt hlive.live).trace hm
    have hone := hinv.once 0 K d hm' hdead
    exact List.count_pos_iff.mp (by omega)

/-- When the injector is destroyed at the end of the application, and no child of it is alive, an
instance is deleted before everything that it depends on, directly or through other types and
interfaces; that is deleted, too. -/
theorem teardown_order (b : Build) (env : Environment) {p : Option Addr} {w₀ w : World}
    (hboot : boot b env = (.ok p, w₀)) (hrun : Run (askStep b) w₀ w)
    (hkids : ∀ j, j < w.count → (w.inj j).pUpstream_ = some 0 → Dead w j) {T U : Component}
    (hdep : Relation.TransGen (DependsOn b env) T U) (hT : T.isInterface = false)
    {c : TypeContainer} {a : Addr} (hl : (w.inj 0).typeMap_.lookup (b.hash T) = some c)
    (ha : c.ptr_ = some a) :
    ∃ c' d, (w.inj 0).typeMap_.lookup (b.hash U) = some c' ∧ c'.ptr_ = some d ∧
      .destroyed d ∈ (w.destroyInjector 0).trace ∧
      ∀ p q, (w.destroyInjector 0).trace = p ++ .destroyed d :: q → .destroyed a ∈ p := by
  have h := session_running hboot hrun
  have hfn : ∃ body, (w.inj 0).recipeMap_.lookup (b.hash T) = some (.fn body) := by
    have hfirst : ∃ V, DependsOn b env T V := by
      obtain ⟨V, hV, _⟩ := Relation.TransGen.head'_iff.mp hdep
      exact ⟨V, hV⟩
    obtain ⟨V, rule, hmem, rfl, _⟩ := hfirst
    rcases (allRules_good env rule hmem).recipe_cases env with ⟨hI, _⟩ | ⟨_, hf⟩
    · rw [hT] at hI
      cases hI
    · exact ⟨_, (h.lists.listed rule hmem).trans (congrArg some hf)⟩
  obtain ⟨c', d, hc', hd, hgo⟩ := rests_before h.stocked h.wired h.live
    (transGen_rests h.lists hdep) hfn hl ha
  have hinv := h.live.inv.destroy h.live.lt h.live.live hkids
  have htrace := (destroyInjector_frees h.live.inv h.live.lt h.live.live).trace
  refine ⟨c', d, hc', hd, destroyed_of_has h.stocked.root h.live hkids hc' hd, ?_⟩
  exact hgo _ hinv ⟨_, htrace.symm⟩

/-- With `--vkdebug` the messenger outlives the device, and so the graphics engine. -/
theorem engine_before_messenger : ∃ c' d,
    (getEngine.2.inj 0).typeMap_.lookup (debugBuild.hash .DebugUtilsMessengerEXT) = some c' ∧
    c'.ptr_ = some d ∧ .destroyed d ∈ (getEngine.2.destroyInjector 0).trace ∧
    ∀ p q, (getEngine.2.destroyInjector 0).trace = p ++ .destroyed d :: q →
      .destroyed (.obj 32) ∈ p := by
  have hrun : Run (askStep debugBuild) started getEngine.2 :=
    RunUnder.start.next (a := ref .CoreGraphicsEngine) trivial
      ⟨by simp, some (.obj 32), eq_of_fst getEngine_ok⟩
  have hone : getEngine.2.count = 1 := by decide +kernel
  have hroot : (getEngine.2.inj 0).pUpstream_ = none := by decide +kernel
  have hentry : (getEngine.2.inj 0).typeMap_.lookup (debugBuild.hash .CoreGraphicsEngine) =
      some ⟨some (.obj 32), true⟩ := by decide +kernel
  have hengine : DependsOn debugBuild debugRun .CoreGraphicsEngine .IGraphicsBackend :=
    ⟨.addCtorRecipe .CoreGraphicsEngine [.Injector], by simp [allRules, defaultRules], rfl,
      fun _ => by simp [Rule.requests, constructor]⟩
  have hbackend : DependsOn debugBuild debugRun .IGraphicsBackend .VulkanBackend :=
    ⟨.bindImpl .IGraphicsBackend .VulkanBackend,
      by simp [allRules, defaultRules, install_vk_initializer_rules], rfl,
      fun _ => by simp [Rule.requests]⟩
  have hvulkan : DependsOn debugBuild debugRun .VulkanBackend .VkbDevice :=
    ⟨.addCtorRecipe .VulkanBackend [.ILogger, .Injector, .IWindow, .Device, .Swapchain, .Pipeline,
      .DeviceQueues_t, .Allocator], by simp [allRules, defaultRules, install_vk_initializer_rules],
      rfl, fun _ => by simp [Rule.requests, constructor]⟩
  have hdevice : DependsOn debugBuild debugRun .VkbDevice .DebugUtilsMessengerEXT :=
    ⟨.addRecipe .VkbDevice (vkb_device_recipe debugBuild debugRun),
      by simp [allRules, defaultRules, install_vk_initializer_rules], rfl,
      fun _ => by simp [Rule.requests, vkb_device_recipe, debugRun]⟩
  refine teardown_order debugBuild debugRun started_boot hrun ?_
    ((((Relation.TransGen.single hengine).tail hbackend).tail hvulkan).tail hdevice) rfl hentry rfl
  intro j hj hp
  rw [hone] at hj
  rw [Nat.lt_one_iff.mp hj, hroot] at hp
  cases hp

end
end Omulator.Wiring
