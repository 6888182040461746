import Omulator.Threads.Exclusion

/-!
# When injection is atomic

As long as no thread misses a type that another thread is injecting, `get` never throws, runs
every recipe at most once, and returns.
-/

namespace Omulator.Injection
open Omulator.Lib Omulator.Di Relation

variable {n : ℕ} {R : Recipes} {s s' : Sys n} {t : Fin n} {T U : Hash_t} {sh sh' : Shared n}
  {pc pc' : Pc}

/-- What a frame for `T` still asks for, `T` depends on. -/
def Pc.Fits (R : Recipes) (T : Hash_t) : Pc → Prop
  | .body _ b => (∃ body, R.recipeMap_ T = some (.fn body)) ∧
      ∀ U, b.Asks U → DependsOn R.recipeMap_ T U
  | .bound _ impl => R.recipeMap_ T = some (.bind impl)
  | _ => True

theorem Recipes.concrete_of_fn (h : R.makes T = true) {body : Body}
    (hr : R.recipeMap_ T = some (.fn body)) : R.is_abstract T = false := by
  rw [Recipes.makes, hr] at h
  simpa using h

theorem Recipes.default_of_none (h : R.makes T = true) (hr : R.recipeMap_ T = none) :
    R.is_abstract T = false ∧ R.default_initializable T = true := by
  rw [Recipes.makes, hr] at h
  simpa using h

theorem Pc.Fits.dependsOn (h : pc.Fits R T) (ha : pc.asks = some U) :
    DependsOn R.recipeMap_ T U := by
  cases pc with
  | body top b =>
    cases b with
    | new => cases ha
    | get V k =>
      cases ha
      exact h.2 U (.here U k)
  | bound top impl =>
    cases ha
    have hr : R.recipeMap_ T = some (.bind U) := h
    simp only [DependsOn, hr]
  | _ => cases ha

theorem Pc.Fits.resume (h : pc.Fits R T) (p : Option Addr) : (pc.resume p).Fits R T := by
  cases pc with
  | body top b =>
    cases b with
    | new => exact h
    | get V k => exact ⟨h.1, fun U hU => h.2 U (.there p hU)⟩
  | bound top impl => trivial
  | _ => trivial

theorem fits_leave (R : Recipes) (T : Hash_t) (top : Bool) : (Pc.leave top).Fits R T := by
  cases top <;> trivial

/-! ### What a step of `get` does -/

theorem Moved.same {c c' : Class} (hi : c'.injecting = true → c.injecting = true ∨
      sh.typeMap_.lookup T = none)
    (hp : c'.present = true → (c.present = true → (sh.typeMap_.lookup T).isSome = true) →
      (sh.typeMap_.lookup T).isSome = true)
    (ha : c'.active = true → c.active = true ∨ sh.typeMap_.lookup T = none)
    (hst : c'.stacked = c.stacked) (hr : c'.started = c.started) (hh : c'.holds = c.holds)
    (hf : c'.flagged = c.flagged)
    (hl : c'.lock = true → sh.isInCycleCheck_ = false ∧ c'.holds = false) :
    Moved t T c c' sh sh where
  others _ _ := rfl
  keep _ := id
  injecting hc := ⟨rfl, hi hc⟩
  idle _ := rfl
  present := hp
  active := ha
  stack := Or.inl ⟨rfl, hst⟩
  ran := Or.inl ⟨rfl, hr ▸ id⟩
  started hc := Or.inl (hr ▸ hc)
  mutex := Or.inl ⟨rfl, hh⟩
  flag := Or.inl ⟨rfl, hf⟩
  lock hc := ⟨(hl hc).1, (hl hc).1, (hl hc).2⟩

theorem Moved.placed {c c' : Class} {m : TypeMap} {f : ℕ} (hadds : sh.typeMap_.Adds T m)
    (hsome : (m.lookup T).isSome = true) (hc : c.active = true) (hi : c'.injecting = false)
    (hst : c'.stacked = c.stacked) (hs : c'.started = true → c.started = true)
    (hh : c'.holds = c.holds) (hf : c'.flagged = c.flagged) (hl : c'.lock = false) :
    Moved t T c c' sh { sh with typeMap_ := m, fresh := f } where
  others := hadds.1
  keep _ he := hadds.lookup_of_some he
  injecting h := by simp [hi] at h
  idle h := by simp [hc] at h
  present _ _ := hsome
  active _ := Or.inl hc
  stack := Or.inl ⟨rfl, hst⟩
  ran := Or.inl ⟨rfl, hs⟩
  started _ := Or.inr hsome
  mutex := Or.inl ⟨rfl, hh⟩
  flag := Or.inl ⟨rfl, hf⟩
  lock h := by simp [hl] at h

theorem Moved.making {c c' : Class} (hmap : sh'.typeMap_ = sh.typeMap_)
    (hc : c.active = true ∧ c.injecting = true) (hp : c'.present = false) (hl : c'.lock = false)
    (hstack : sh'.typeHashStack_ = sh.typeHashStack_ ∧ c'.stacked = c.stacked ∨
      sh'.typeHashStack_ = insert T sh.typeHashStack_ ∧ c'.stacked = true)
    (hran : sh'.ran = sh.ran ∧ c'.started = c.started ∨
      sh'.ran = sh.ran ++ [T] ∧ c.started = false ∧ c'.started = true)
    (hmutex : sh'.injectionMtx_ = sh.injectionMtx_ ∧ c'.holds = c.holds ∨
      sh.injectionMtx_ = none ∧ sh'.injectionMtx_ = some t ∧ c'.holds = true)
    (hflag : sh'.isInCycleCheck_ = sh.isInCycleCheck_ ∧ c'.flagged = c.flagged ∨
      sh'.isInCycleCheck_ = true ∧ c'.flagged = true) : Moved t T c c' sh sh' where
  others U _ := by rw [hmap]
  keep e he := by rwa [hmap]
  injecting _ := ⟨hmap, Or.inl hc.2⟩
  idle _ := hmap
  present h := by simp [hp] at h
  active _ := Or.inl hc.1
  stack := hstack.imp_right fun h => Or.inl ⟨h.1, hc.1, h.2⟩
  ran := by
    rcases hran with ⟨hr, hs⟩ | ⟨hr, hs⟩
    · exact Or.inl ⟨hr, fun h => hs.symm.trans h⟩
    · exact Or.inr ⟨hr, hc.2, hs⟩
  started h := by
    rcases hran with ⟨-, hs⟩ | ⟨-, -, hs⟩
    · exact Or.inl (hs.trans h)
    · exact Or.inl hs
  mutex := hmutex.imp_right Or.inl
  flag := hflag.imp_right Or.inl
  lock h := by simp [hl] at h

theorem Moved.leaving {c c' : Class} (hmap : sh'.typeMap_ = sh.typeMap_)
    (hran : sh'.ran = sh.ran) (hc : c.present = true ∧ c.started = false)
    (hi : c'.injecting = false) (hs : c'.started = false) (hl : c'.lock = false)
    (ha : c'.active = true → c.active = true)
    (hstack : sh'.typeHashStack_ = sh.typeHashStack_ ∧ c'.stacked = c.stacked ∨
      sh'.typeHashStack_ = sh.typeHashStack_.erase T ∧ c.active = true ∧ c'.stacked = false)
    (hmutex : sh'.injectionMtx_ = sh.injectionMtx_ ∧ c'.holds = c.holds ∨
      sh'.injectionMtx_ = none ∧ c.holds = true ∧ c'.holds = false)
    (hflag : sh'.isInCycleCheck_ = sh.isInCycleCheck_ ∧ c'.flagged = c.flagged ∨
      sh'.isInCycleCheck_ = false ∧ c.flagged = true ∧ c'.flagged = false) :
    Moved t T c c' sh sh' where
  others U _ := by rw [hmap]
  keep e he := by rwa [hmap]
  injecting h := by simp [hi] at h
  idle _ := hmap
  present _ hp := by
    rw [hmap]
    exact hp hc.1
  active h := Or.inl (ha h)
  stack := hstack.imp_right Or.inr
  ran := Or.inl ⟨hran, fun h => by simp [hs] at h⟩
  started h := by simp [hc.2] at h
  mutex := hmutex.imp_right Or.inr
  flag := hflag.imp_right Or.inr
  lock h := by simp [hl] at h

theorem leave_cls (top : Bool) : (Pc.leave top).cls =
    { active := true, stacked := true, present := true, holds := top, flagged := top } := by
  cases top <;> rfl

theorem advance_moved (hfit : pc.Fits R T) (hmake : pc.cls.active = true → R.makes T = true)
    (h : advance R t T sh pc = .goto pc' sh') :
    Moved t T pc.cls pc'.cls sh sh' ∧ pc'.Fits R T := by
  cases pc with
  | has_instance =>
    simp only [advance, Result.goto.injEq] at h
    obtain ⟨rfl, rfl⟩ := h
    cases hk : sh.typeMap_.has_key T with
    | true =>
      have hs : (sh.typeMap_.lookup T).isSome = true := hk
      exact ⟨.same (by simp [Pc.cls]) (fun _ _ => hs) (by simp [Pc.cls]) rfl rfl rfl rfl
        (by simp [Pc.cls]), trivial⟩
    | false =>
      have hn := (TypeMap.not_has_key_iff _ T).mp hk
      exact ⟨.same (fun _ => Or.inr hn) (by simp [Pc.cls]) (fun _ => Or.inr hn) rfl rfl rfl rfl
        (by simp [Pc.cls]), trivial⟩
  | readFlag =>
    simp only [advance, Result.goto.injEq] at h
    obtain ⟨rfl, rfl⟩ := h
    cases hf : sh.isInCycleCheck_ with
    | true =>
      exact ⟨.same (fun _ => Or.inl rfl) (by simp [Pc.cls]) (fun _ => Or.inl rfl) rfl rfl rfl rfl
        (by simp [Pc.cls]), trivial⟩
    | false =>
      exact ⟨.same (fun _ => Or.inl rfl) (by simp [Pc.cls]) (fun _ => Or.inl rfl) rfl rfl rfl rfl
        (fun _ => ⟨hf, rfl⟩), trivial⟩
  | contains =>
    simp only [advance] at h
    split at h
    · cases h
    · cases h
      exact ⟨.same (fun _ => Or.inl rfl) (by simp [Pc.cls]) (fun _ => Or.inl rfl) rfl rfl rfl rfl
        (by simp [Pc.cls]), trivial⟩
  | lock =>
    simp only [advance] at h
    split at h
    · rename_i hm
      cases h
      exact ⟨.making rfl ⟨rfl, rfl⟩ rfl rfl (Or.inl ⟨rfl, rfl⟩) (Or.inl ⟨rfl, rfl⟩)
        (Or.inr ⟨hm, rfl, rfl⟩) (Or.inl ⟨rfl, rfl⟩), trivial⟩
    · cases h
  | setFlag =>
    cases h
    exact ⟨.making rfl ⟨rfl, rfl⟩ rfl rfl (Or.inl ⟨rfl, rfl⟩) (Or.inl ⟨rfl, rfl⟩)
      (Or.inl ⟨rfl, rfl⟩) (Or.inr ⟨rfl, rfl⟩), trivial⟩
  | insert top =>
    cases h
    exact ⟨.making rfl ⟨rfl, rfl⟩ rfl rfl (Or.inr ⟨rfl, rfl⟩) (Or.inl ⟨rfl, rfl⟩)
      (Or.inl ⟨rfl, rfl⟩) (Or.inl ⟨rfl, rfl⟩), trivial⟩
  | find top =>
    have hrun : ∀ pc' : Pc, pc'.cls = (Pc.bound top 0).cls →
        Moved t T (Pc.find top).cls pc'.cls sh { sh with ran := sh.ran ++ [T] } := by
      intro pc' hpc
      rw [hpc]
      exact .making rfl ⟨rfl, rfl⟩ rfl rfl (Or.inl ⟨rfl, rfl⟩) (Or.inr ⟨rfl, rfl, rfl⟩)
        (Or.inl ⟨rfl, rfl⟩) (Or.inl ⟨rfl, rfl⟩)
    simp only [advance] at h
    split at h
    · rename_i body hr
      cases h
      refine ⟨hrun _ rfl, ⟨body, hr⟩, fun U hU => ?_⟩
      simp only [DependsOn, hr]
      exact hU
    · rename_i impl hr
      cases h
      exact ⟨hrun _ rfl, hr⟩
    · split at h
      · cases h
      · split at h
        · cases h
          exact ⟨.same (fun _ => Or.inl rfl) (by simp [Pc.cls]) (fun _ => Or.inl rfl) rfl rfl rfl
            rfl (by simp [Pc.cls]), trivial⟩
        · cases h
  | body top b =>
    cases b with
    | get U k => cases h
    | new =>
      obtain ⟨body, hbody⟩ := hfit.1
      have habs := R.concrete_of_fn (hmake rfl) hbody
      simp only [advance, habs] at h
      cases h
      exact ⟨.making rfl ⟨rfl, rfl⟩ rfl rfl (Or.inl ⟨rfl, rfl⟩) (Or.inl ⟨rfl, rfl⟩)
        (Or.inl ⟨rfl, rfl⟩) (Or.inl ⟨rfl, rfl⟩), trivial⟩
  | bound top impl => cases h
  | emplace_impl top p =>
    cases h
    have hsome : ((sh.typeMap_.emplace_impl T p).1.lookup T).isSome = true := by
      rw [TypeMap.emplace_impl_lookup]
      rfl
    cases R.is_abstract T with
    | true =>
      refine ⟨?_, fits_leave R T top⟩
      rw [if_pos rfl, leave_cls]
      exact .placed (TypeMap.adds_emplace_impl _ T p) hsome rfl rfl rfl (by simp) rfl rfl rfl
    | false =>
      exact ⟨.placed (TypeMap.adds_emplace_impl _ T p) hsome rfl rfl rfl (fun _ => rfl) rfl rfl
        rfl, trivial⟩
  | emplace_ptr top p =>
    cases h
    have hsome : ((sh.typeMap_.emplace_ptr T p).1.lookup T).isSome = true := by
      rw [TypeMap.emplace_ptr_lookup]
      rfl
    refine ⟨?_, fits_leave R T top⟩
    rw [leave_cls]
    cases p <;>
      exact .placed (TypeMap.adds_emplace_ptr _ T _) hsome rfl rfl rfl (by simp) rfl rfl rfl
  | emplace top =>
    cases h
    have hsome : ((sh.typeMap_.emplace T (some (.obj sh.fresh))).1.lookup T).isSome = true := by
      rw [TypeMap.emplace_lookup]
      rfl
    refine ⟨?_, fits_leave R T top⟩
    rw [leave_cls]
    exact .placed (TypeMap.adds_emplace _ T _) hsome rfl rfl rfl (by simp) rfl rfl rfl
  | clearFlag =>
    cases h
    exact ⟨.leaving rfl rfl ⟨rfl, rfl⟩ rfl rfl rfl (fun _ => rfl) (Or.inl ⟨rfl, rfl⟩)
      (Or.inl ⟨rfl, rfl⟩) (Or.inr ⟨rfl, rfl, rfl⟩), trivial⟩
  | unlock =>
    cases h
    exact ⟨.leaving rfl rfl ⟨rfl, rfl⟩ rfl rfl rfl (fun _ => rfl) (Or.inl ⟨rfl, rfl⟩)
      (Or.inr ⟨rfl, rfl, rfl⟩) (Or.inl ⟨rfl, rfl⟩), trivial⟩
  | erase =>
    cases h
    exact ⟨.leaving rfl rfl ⟨rfl, rfl⟩ rfl rfl rfl (by simp [Pc.cls]) (Or.inr ⟨rfl, rfl, rfl⟩)
      (Or.inl ⟨rfl, rfl⟩) (Or.inl ⟨rfl, rfl⟩), trivial⟩
  | push_back =>
    cases h
    exact ⟨.leaving rfl rfl ⟨rfl, rfl⟩ rfl rfl rfl (by simp [Pc.cls]) (Or.inl ⟨rfl, rfl⟩)
      (Or.inl ⟨rfl, rfl⟩) (Or.inl ⟨rfl, rfl⟩), trivial⟩
  | ref => cases h

/-! ### The frames of a thread -/

def Path (R : Recipes) (ts : List Hash_t) : Prop :=
  ts.Pairwise fun U T => TransGen (fun V W => DependsOn R.recipeMap_ W V) U T

theorem Path.ne {ts : List Hash_t} (h : Path R (T :: ts)) (hU : U ∈ ts) : U ≠ T := by
  rintro rfl
  have hloop := (List.pairwise_cons.mp h).1 U hU
  exact R.acyclic.transGen.irrefl.irrefl U hloop

theorem Path.push {ts : List Hash_t} (h : Path R (T :: ts)) (hd : DependsOn R.recipeMap_ T U) :
    Path R (U :: T :: ts) := by
  refine List.pairwise_cons.mpr ⟨fun V hV => ?_, h⟩
  rcases List.mem_cons.mp hV with rfl | hV
  · exact .single hd
  · exact .head hd ((List.pairwise_cons.mp h).1 V hV)

structure Frames (R : Recipes) (fs : List Frame) : Prop where
  fits : ∀ f ∈ fs, f.pc.Fits R f.type
  makes : ∀ f ∈ fs, f.pc.cls.active = true → R.makes f.type = true
  asking : ∀ f ∈ fs.tail, f.pc.asks.isSome = true
  path : Path R (fs.map Frame.type)

namespace Frames
variable {f : Frame} {fs : List Frame}

theorem nil (R : Recipes) : Frames R [] := ⟨by simp, by simp, by simp, List.Pairwise.nil⟩

theorem start (R : Recipes) (T : Hash_t) : Frames R [⟨T, .has_instance⟩] := by
  refine ⟨fun f hf => ?_, fun f hf ha => ?_, by simp, List.pairwise_singleton _ T⟩
  · rw [List.mem_singleton.mp hf]
    trivial
  · rw [List.mem_singleton.mp hf] at ha
    cases ha

theorem below (h : Frames R (f :: fs)) {g : Frame} (hg : g ∈ fs) :
    Below f.type (g.type, g.pc.cls) :=
  ⟨h.path.ne (List.mem_map_of_mem hg), asks_cls (h.asking g hg)⟩

theorem goto (h : Frames R (f :: fs)) (hfit : pc'.Fits R f.type)
    (hmake : pc'.cls.active = true → R.makes f.type = true) :
    Frames R ({ f with pc := pc' } :: fs) where
  fits g hg := by
    rcases List.mem_cons.mp hg with rfl | hg
    · exact hfit
    · exact h.fits g (List.mem_cons_of_mem _ hg)
  makes g hg := by
    rcases List.mem_cons.mp hg with rfl | hg
    · exact hmake
    · exact h.makes g (List.mem_cons_of_mem _ hg)
  asking := h.asking
  path := h.path

theorem push (h : Frames R (f :: fs)) (ha : f.pc.asks = some U) :
    Frames R (⟨U, .has_instance⟩ :: f :: fs) where
  fits g hg := by
    rcases List.mem_cons.mp hg with rfl | hg
    · trivial
    · exact h.fits g hg
  makes g hg ha' := by
    rcases List.mem_cons.mp hg with rfl | hg
    · cases ha'
    · exact h.makes g hg ha'
  asking g hg := by
    rcases List.mem_cons.mp hg with rfl | hg
    · rw [ha]
      rfl
    · exact h.asking g hg
  path := h.path.push ((h.fits f (List.mem_cons_self ..)).dependsOn ha)

theorem pop {g : Frame} (h : Frames R (f :: g :: fs)) (p : Option Addr) :
    Frames R ({ g with pc := g.pc.resume p } :: fs) where
  fits x hx := by
    rcases List.mem_cons.mp hx with rfl | hx
    · exact (h.fits g (by simp)).resume p
    · exact h.fits x (by simp [hx])
  makes x hx := by
    rcases List.mem_cons.mp hx with rfl | hx
    · rw [resume_cls]
      exact h.makes g (by simp)
    · exact h.makes x (by simp [hx])
  asking x hx := h.asking x (List.mem_cons_of_mem _ hx)
  path := (List.pairwise_cons.mp h.path).2

end Frames

/-! ### The invariant -/

structure Inv (R : Recipes) (s : Sys n) : Prop where
  exclusive : Exclusive s
  frames : ∀ t, Frames R (s.threads t).frames
  thrown : ∀ t, (s.threads t).thrown = []

/-- The type whose instance the thread is about to look for and not to find. -/
def Sys.misses (s : Sys n) (t : Fin n) : Option Hash_t :=
  match (s.threads t).frames with
  | ⟨T, .has_instance⟩ :: _ => if s.shared.typeMap_.has_key T then none else some T
  | _ => none

/-- A `get` that finds no instance of its type does so when no other thread is injecting it, and
the type can be made. -/
def Alone (R : Recipes) (s : Sys n) (t : Fin n) : Prop :=
  ∀ T, s.misses t = some T → R.makes T = true ∧
    ∀ u, u ≠ t → ∀ g ∈ (s.threads u).frames, g.type = T → g.pc.cls.injecting = false

instance (R : Recipes) (s : Sys n) (t : Fin n) : Decidable (Alone R s t) :=
  match h : s.misses t with
  | none => .isTrue fun T hT => by
    rw [h] at hT
    cases hT
  | some T => decidable_of_iff (R.makes T = true ∧ ∀ u, u ≠ t → ∀ g ∈ (s.threads u).frames,
      g.type = T → g.pc.cls.injecting = false) (by simp [Alone, h])

theorem misses_eq {f : Frame} {fs : List Frame} (hfr : (s.threads t).frames = f :: fs)
    (hpc : f.pc = .has_instance) (hn : s.shared.typeMap_.lookup f.type = none) :
    s.misses t = some f.type := by
  obtain ⟨T, pc⟩ := f
  have hk : s.shared.typeMap_.has_key T = false := (TypeMap.not_has_key_iff _ T).mpr hn
  dsimp only at hpc
  subst hpc
  rw [Sys.misses, hfr]
  simp [hk]

theorem init_inv (R : Recipes) (calls : Fin n → List Hash_t) (m : TypeMap) :
    Inv R (.init calls m) where
  exclusive := by
    have hnone : ∀ t x, x ∉ (Sys.init calls m).view t := fun t x hx => by cases hx
    refine ⟨?_, ?_, ?_, ?_, ?_, ?_, ?_, ?_, ?_, ?_⟩
    · exact fun t u x y hx => absurd hx (hnone t x)
    · exact fun t x hx => absurd hx (hnone t x)
    · exact fun t x hx => absurd hx (hnone t x)
    · exact fun T => iff_of_false (Finset.notMem_empty T) fun ⟨t, x, hx, _⟩ => hnone t x hx
    · exact fun T => Nat.zero_le 1
    · exact fun T _ _ => rfl
    · exact fun t => iff_of_false (by simp [Sys.init]) fun ⟨x, hx, _⟩ => hnone t x hx
    · exact fun t x y hx => absurd hx (hnone t x)
    · exact iff_of_false (by simp [Sys.init]) fun ⟨t, x, hx, _⟩ => hnone t x hx
    · exact fun t x y hx => absurd hx (hnone t x)
  frames t := .nil R
  thrown t := rfl

section
variable {th : Thread}

@[simp] theorem set_shared (s : Sys n) (t : Fin n) (th : Thread) (sh : Shared n) :
    (s.set t th sh).shared = sh := rfl
@[simp] theorem set_self (s : Sys n) (t : Fin n) (th : Thread) (sh : Shared n) :
    (s.set t th sh).threads t = th := Function.update_self ..
@[simp] theorem set_ne (s : Sys n) {t u : Fin n} (h : u ≠ t) (th : Thread) (sh : Shared n) :
    (s.set t th sh).threads u = s.threads u := Function.update_of_ne h ..

/-- The thread's frames are all that the others see of its step. -/
theorem Change.of_lists {c c' : Class} {v : List (Hash_t × Class)} {a b : Prop}
    (hm : Moved t T c c' s.shared sh') (hold : ∀ x, x ∈ s.view t ↔ x ∈ v ∨ x = (T, c) ∧ a)
    (hnew : ∀ x, x ∈ th.view ↔ x ∈ v ∨ x = (T, c') ∧ b) (ha : a ∨ c.Outside ∧ c.present = false)
    (hb : b ∨ c'.Outside) (hv : ∀ x ∈ v, Below T x) : Change t T c c' s (s.set t th sh') where
  moved := hm
  there := ha.imp_left fun ha => (hold _).mpr (Or.inr ⟨rfl, ha⟩)
  there' := by
    refine hb.imp_left fun hb => ?_
    unfold Sys.view
    rw [set_self]
    exact (hnew _).mpr (Or.inr ⟨rfl, hb⟩)
  old u x hx := by
    unfold Sys.view
    by_cases hu : u = t
    · subst hu
      rw [set_self]
      rcases (hold x).mp hx with hx | ⟨hx, -⟩
      · exact Or.inr ⟨(hnew x).mpr (Or.inl hx), fun _ => hv x hx⟩
      · exact Or.inl ⟨rfl, hx⟩
    · rw [set_ne _ hu]
      exact Or.inr ⟨hx, fun he => absurd he hu⟩
  new u x hx := by
    unfold Sys.view at hx
    by_cases hu : u = t
    · subst hu
      rw [set_self] at hx
      rcases (hnew x).mp hx with hx | ⟨hx, -⟩
      · exact Or.inr ⟨(hold x).mpr (Or.inl hx), fun _ => hv x hx⟩
      · exact Or.inl ⟨rfl, hx⟩
    · rw [set_ne _ hu] at hx
      exact Or.inr ⟨hx, fun he => absurd he hu⟩

theorem Inv.set (h : Inv R s) (hex : Exclusive (s.set t th sh')) (hfr : Frames R th.frames)
    (hth : th.thrown = []) : Inv R (s.set t th sh') where
  exclusive := hex
  frames u := by
    by_cases hu : u = t
    · subst hu
      rw [set_self]
      exact hfr
    · rw [set_ne _ hu]
      exact h.frames u
  thrown u := by
    by_cases hu : u = t
    · subst hu
      rw [set_self]
      exact hth
    · rw [set_ne _ hu]
      exact h.thrown u

end

/-! ### Every step keeps it -/

section
variable {f : Frame} {fs : List Frame}

theorem not_begins {c : Class} : Begins t T c c s := by
  intro hc hc'
  rw [hc] at hc'
  cases hc'

theorem enter_exclusive (h : Inv R s) (hfr : (s.threads t).frames = fs) {th : Thread}
    (hth : th.frames = ⟨U, .has_instance⟩ :: fs) (hnew : Frames R th.frames) :
    Exclusive (s.set t th s.shared) := by
  rw [hth] at hnew
  have hidle : (Pc.has_instance).cls.Outside := ⟨rfl, rfl, rfl, rfl, rfl, rfl, rfl⟩
  have hch : Change t U (Pc.has_instance).cls (Pc.has_instance).cls s (s.set t th s.shared) := by
    refine .of_lists (v := s.view t) (a := False) (b := True) (.outside hidle) (by simp) ?_
      (Or.inr ⟨hidle, rfl⟩) (Or.inl trivial) ?_
    · intro x
      simp [Sys.view, Thread.view, hth, hfr, or_comm]
    · intro x hx
      simp only [Sys.view, Thread.view, hfr, List.mem_map] at hx
      obtain ⟨g, hg, rfl⟩ := hx
      exact hnew.below hg
  exact h.exclusive.change hch not_begins

theorem return_exclusive (h : Inv R s) (hfr : (s.threads t).frames = f :: fs) (hpc : f.pc = .ref)
    (p : Option Addr) : Exclusive (s.set t ((s.threads t).return_ p fs) s.shared) := by
  have hframes := h.frames t
  rw [hfr] at hframes
  have hdone : (Pc.ref).cls.Outside := ⟨rfl, rfl, rfl, rfl, rfl, rfl, rfl⟩
  have hview : ((s.threads t).return_ p fs).view = fs.map fun g => (g.type, g.pc.cls) := by
    cases fs with
    | nil => rfl
    | cons g fs => simp [Thread.return_, Thread.view, resume_cls]
  have hch : Change t f.type (Pc.ref).cls (Pc.ref).cls s
      (s.set t ((s.threads t).return_ p fs) s.shared) := by
    refine .of_lists (v := fs.map fun g => (g.type, g.pc.cls)) (a := True) (b := False)
      (.outside hdone) ?_ (by simp [hview]) (Or.inl trivial) (Or.inr hdone) ?_
    · intro x
      simp [Sys.view, Thread.view, hfr, hpc, or_comm]
    · intro x hx
      obtain ⟨g, hg, rfl⟩ := List.mem_map.mp hx
      exact hframes.below hg
  exact h.exclusive.change hch not_begins

theorem misses_of_begins (hm : Moved t f.type f.pc.cls pc'.cls s.shared sh')
    (hfr : (s.threads t).frames = f :: fs)
    (hadv : advance R t f.type s.shared f.pc = .goto pc' sh') (hc : f.pc.cls.active = false)
    (hc' : pc'.cls.active = true) : s.misses t = some f.type := by
  refine misses_eq hfr ?_ ((hm.active hc').resolve_left (by simp [hc]))
  cases hpc : f.pc with
  | has_instance => rfl
  | push_back =>
    rw [hpc] at hadv
    cases hadv
    cases hc'
  | ref =>
    rw [hpc] at hadv
    cases hadv
  | emplace_ptr top p =>
    rw [hpc] at hc
    cases p <;> cases hc
  | _ =>
    rw [hpc] at hc
    cases hc

theorem goto_exclusive (h : Inv R s) (hfr : (s.threads t).frames = f :: fs) (ha : Alone R s t)
    (hadv : advance R t f.type s.shared f.pc = .goto pc' sh') :
    Exclusive (s.set t { s.threads t with frames := { f with pc := pc' } :: fs } sh') := by
  have hframes := h.frames t
  rw [hfr] at hframes
  have hm := (advance_moved (hframes.fits f (by simp)) (hframes.makes f (by simp)) hadv).1
  have hch : Change t f.type f.pc.cls pc'.cls s
      (s.set t { s.threads t with frames := { f with pc := pc' } :: fs } sh') := by
    refine .of_lists (v := fs.map fun g => (g.type, g.pc.cls)) (a := True) (b := True) hm ?_ ?_
      (Or.inl trivial) (Or.inl trivial) ?_
    · intro x
      simp [Sys.view, Thread.view, hfr, or_comm]
    · intro x
      simp [Thread.view, or_comm]
    · intro x hx
      obtain ⟨g, hg, rfl⟩ := List.mem_map.mp hx
      exact hframes.below hg
  refine h.exclusive.change hch fun hc hc' u x hu hx hxT => ?_
  obtain ⟨g, hg, rfl⟩ := List.mem_map.mp hx
  exact (ha f.type (misses_of_begins hm hfr hadv hc hc')).2 u hu g hg hxT

theorem no_throw (h : Inv R s) (hfr : (s.threads t).frames = f :: fs) (e : Exn) :
    advance R t f.type s.shared f.pc ≠ .throw e := by
  have hframes := h.frames t
  rw [hfr] at hframes
  intro hadv
  cases hpc : f.pc with
  | contains =>
    rw [hpc] at hadv
    simp only [advance] at hadv
    split at hadv
    · rename_i hT
      obtain ⟨u, x, hx, hxT, hst⟩ := (h.exclusive.stack f.type).mp hT
      have hxa := view_active hx (Or.inr (Or.inl hst))
      have hf : (f.type, f.pc.cls) ∈ s.view t := by
        simp [Sys.view, Thread.view, hfr]
      have hut : u = t := h.exclusive.unique u t x _ hx hf hxT hxa (by rw [hpc]; rfl)
      subst hut
      obtain ⟨g, hg, rfl⟩ := List.mem_map.mp hx
      rw [hfr] at hg
      rcases List.mem_cons.mp hg with rfl | hg
      · rw [hpc] at hst
        cases hst
      · exact (hframes.below hg).1 hxT
    · cases hadv
  | find top =>
    rw [hpc] at hadv
    simp only [advance] at hadv
    split at hadv
    · cases hadv
    · cases hadv
    · rename_i hr
      obtain ⟨habs, hdef⟩ := R.default_of_none (hframes.makes f (by simp) (by rw [hpc]; rfl)) hr
      rw [if_neg (by simp [habs]), if_pos hdef] at hadv
      cases hadv
  | lock =>
    rw [hpc] at hadv
    simp only [advance] at hadv
    split at hadv <;> cases hadv
  | body top b =>
    rw [hpc] at hadv
    cases b with
    | get U k => cases hadv
    | new =>
      simp only [advance] at hadv
      split at hadv <;> cases hadv
  | _ =>
    rw [hpc] at hadv
    cases hadv

theorem step_inv (h : Inv R s) (ha : Alone R s t) (hs : Step R s t s') : Inv R s' := by
  unfold Step Sys.step at hs
  dsimp only at hs
  split at hs
  · rename_i hfr
    split at hs
    · cases hs
    · cases hs
      exact h.set (enter_exclusive h hfr rfl (.start R _)) (.start R _) (h.thrown t)
  · rename_i f fs hfr
    have hframes := h.frames t
    rw [hfr] at hframes
    split at hs
    · rename_i U hU
      cases hs
      exact h.set (enter_exclusive h hfr rfl (hframes.push hU)) (hframes.push hU) (h.thrown t)
    · split at hs
      · rename_i hpc
        have hmem : (f.type, f.pc.cls) ∈ s.view t := by
          simp [Sys.view, Thread.view, hfr]
        have hsome := h.exclusive.present t _ hmem (by rw [hpc]; rfl)
        split at hs
        · rename_i hnone
          rw [hnone] at hsome
          cases hsome
        · cases hs
          refine h.set (return_exclusive h hfr hpc _) ?_ ?_
          · cases fs with
            | nil => exact .nil R
            | cons g fs => exact hframes.pop _
          · cases fs <;> exact h.thrown t
      · split at hs
        · rename_i pc' sh' hadv
          cases hs
          obtain ⟨hm, hfit⟩ :=
            advance_moved (hframes.fits f (by simp)) (hframes.makes f (by simp)) hadv
          refine h.set (goto_exclusive h hfr ha hadv) (hframes.goto hfit fun hc' => ?_) (h.thrown t)
          by_cases hc : f.pc.cls.active = true
          · exact hframes.makes f (by simp) hc
          · exact (ha f.type (misses_of_begins hm hfr hadv (by simpa using hc) hc')).1
        · rename_i e hadv
          exact absurd hadv (no_throw h hfr e)
        · cases hs

end

theorem run_inv {calls : Fin n → List Hash_t} {m : TypeMap}
    (h : RunUnder (Step R) (Alone R) (.init calls m) s) : Inv R s :=
  h.invariant (Inv R) (init_inv R calls m) fun _ _ _ ht ha hs => step_inv ht ha hs

/-! ### Some thread can go on -/

theorem advance_wait (h : advance R t T sh pc = .wait) (hasks : pc.asks = none)
    (href : pc ≠ .ref) : pc = .lock ∧ ∃ u, sh.injectionMtx_ = some u := by
  cases pc with
  | lock =>
    simp only [advance] at h
    split at h
    · cases h
    · rename_i u hu
      exact ⟨rfl, u, hu⟩
  | contains =>
    simp only [advance] at h
    split at h <;> cases h
  | find top =>
    simp only [advance] at h
    split at h
    · cases h
    · cases h
    · split at h
      · cases h
      · split at h <;> cases h
  | body top b =>
    cases b with
    | new =>
      simp only [advance] at h
      split at h <;> cases h
    | get U k => cases hasks
  | bound top impl => cases hasks
  | ref => exact absurd rfl href
  | _ => cases h

theorem can_step {f : Frame} {fs : List Frame} (hfr : (s.threads t).frames = f :: fs)
    (hl : f.pc ≠ .lock ∨ s.shared.injectionMtx_ = none) : ∃ s', Step R s t s' := by
  unfold Step Sys.step
  dsimp only
  rw [hfr]
  dsimp only
  split
  · exact ⟨_, rfl⟩
  · rename_i hasks
    split
    · split <;> exact ⟨_, rfl⟩
    · rename_i href
      split
      · exact ⟨_, rfl⟩
      · exact ⟨_, rfl⟩
      · rename_i hwait
        obtain ⟨hpc, u, hu⟩ := advance_wait hwait hasks href
        rcases hl with hl | hl
        · exact absurd hpc hl
        · rw [hl] at hu
          cases hu

theorem progress (h : Inv R s) (ht : ¬ (s.threads t).Done) : ∃ u s', Step R s u s' := by
  cases hfr : (s.threads t).frames with
  | nil =>
    cases hc : (s.threads t).calls with
    | nil => exact absurd ⟨hc, hfr⟩ ht
    | cons T calls =>
      refine ⟨t, ?_⟩
      unfold Step Sys.step
      simp only [hfr, hc]
      exact ⟨_, rfl⟩
  | cons f fs =>
    cases hm : s.shared.injectionMtx_ with
    | none => exact ⟨t, can_step hfr (Or.inr hm)⟩
    | some u =>
      -- the thread that has the mutex does not wait for it
      obtain ⟨x, hx, hh⟩ := (h.exclusive.mutex u).mp hm
      cases hg : (s.threads u).frames with
      | nil =>
        simp [Sys.view, Thread.view, hg] at hx
      | cons g gs =>
        refine ⟨u, can_step hg (Or.inl fun hpc => ?_)⟩
        have hmem : (g.type, g.pc.cls) ∈ s.view u := by
          simp [Sys.view, Thread.view, hg]
        have hno := h.exclusive.free u _ x hmem hx (by rw [hpc]; rfl)
        rw [hh] at hno
        cases hno


/-! ### No thread goes on for ever -/

def Local (n : ℕ) (R : Recipes) (th' th : Thread) : Prop :=
  ∃ (s s' : Sys n) (t : Fin n), Step R s t s' ∧ s.threads t = th ∧ s'.threads t = th'

theorem step_others (h : Step R s t s') {u : Fin n} (hu : u ≠ t) :
    s'.threads u = s.threads u := by
  unfold Step Sys.step at h
  dsimp only at h
  split at h
  · split at h
    · cases h
    · cases h
      exact set_ne _ hu _ _
  · split at h
    · cases h
      exact set_ne _ hu _ _
    · split at h
      · split at h <;> cases h <;> exact set_ne _ hu _ _
      · split at h
        · cases h
          exact set_ne _ hu _ _
        · cases h
          exact set_ne _ hu _ _
        · cases h

section
variable {calls : List Hash_t} {fs : List Frame} {r : List (Option Addr)} {e : List Exn}

abbrev Thread.at_ (calls : List Hash_t) (fs : List Frame) (r : List (Option Addr)) (e : List Exn)
    (T : Hash_t) (pc : Pc) : Thread := ⟨calls, ⟨T, pc⟩ :: fs, r, e⟩

theorem acc_idle_nil : Acc (Local n R) ⟨[], [], r, e⟩ := by
  refine ⟨_, fun th' ⟨s, s', t, hs, hth, _⟩ => ?_⟩
  unfold Step Sys.step at hs
  simp only [hth] at hs
  cases hs

theorem acc_idle_cons (h : Acc (Local n R) (.at_ calls [] r e T .has_instance)) :
    Acc (Local n R) ⟨T :: calls, [], r, e⟩ := by
  refine ⟨_, fun th' ⟨s, s', t, hs, hth, hth'⟩ => ?_⟩
  unfold Step Sys.step at hs
  simp only [hth] at hs
  cases hs
  rw [← hth', set_self]
  exact h

theorem acc_asks (ha : pc.asks = some U)
    (h : Acc (Local n R) (.at_ calls (⟨T, pc⟩ :: fs) r e U .has_instance)) :
    Acc (Local n R) (.at_ calls fs r e T pc) := by
  refine ⟨_, fun th' ⟨s, s', t, hs, hth, hth'⟩ => ?_⟩
  unfold Step Sys.step at hs
  simp only [hth, ha] at hs
  cases hs
  rw [← hth', set_self]
  exact h

theorem acc_ref (h : ∀ p, Acc (Local n R) ((Thread.at_ calls fs r e T .ref).return_ p fs))
    (ht : ∀ e', Acc (Local n R) ⟨calls, [], r, e'⟩) :
    Acc (Local n R) (.at_ calls fs r e T .ref) := by
  refine ⟨_, fun th' ⟨s, s', t, hs, hth, hth'⟩ => ?_⟩
  unfold Step Sys.step at hs
  simp only [hth, Pc.asks] at hs
  split at hs
  · cases hs
    rw [← hth', set_self]
    exact ht _
  · cases hs
    rw [← hth', set_self]
    exact h _

/-- One step of a `get`, which may throw. -/
theorem acc_goto (ha : pc.asks = none) (hr : pc ≠ .ref)
    (h : ∀ (t : Fin n) sh pc' sh', advance R t T sh pc = .goto pc' sh' →
      Acc (Local n R) (.at_ calls fs r e T pc'))
    (ht : ∀ e', Acc (Local n R) ⟨calls, [], r, e'⟩) :
    Acc (Local n R) (.at_ calls fs r e T pc) := by
  refine ⟨_, fun th' ⟨s, s', t, hs, hth, hth'⟩ => ?_⟩
  unfold Step Sys.step at hs
  simp only [hth, ha] at hs
  split at hs
  · rename_i pc' sh' hadv
    cases hs
    rw [← hth', set_self]
    exact h t _ pc' sh' hadv
  · cases hs
    rw [← hth', set_self]
    exact ht _
  · cases hs

theorem acc_leave (hidle : ∀ r e, Acc (Local n R) ⟨calls, [], r, e⟩)
    (href : Acc (Local n R) (.at_ calls fs r e T .ref)) (top : Bool) :
    Acc (Local n R) (.at_ calls fs r e T (.leave top)) := by
  have hpush : Acc (Local n R) (.at_ calls fs r e T .push_back) :=
    acc_goto rfl (by simp) (fun t sh pc' sh' h => by cases h; exact href) (hidle r)
  have herase : Acc (Local n R) (.at_ calls fs r e T .erase) :=
    acc_goto rfl (by simp) (fun t sh pc' sh' h => by cases h; exact hpush) (hidle r)
  have hunlock : Acc (Local n R) (.at_ calls fs r e T .unlock) :=
    acc_goto rfl (by simp) (fun t sh pc' sh' h => by cases h; exact herase) (hidle r)
  have hclear : Acc (Local n R) (.at_ calls fs r e T .clearFlag) :=
    acc_goto rfl (by simp) (fun t sh pc' sh' h => by cases h; exact hunlock) (hidle r)
  cases top
  · exact herase
  · exact hclear

theorem acc_emplace_ptr (hidle : ∀ r e, Acc (Local n R) ⟨calls, [], r, e⟩)
    (href : Acc (Local n R) (.at_ calls fs r e T .ref)) (top : Bool) (p : Option Addr) :
    Acc (Local n R) (.at_ calls fs r e T (.emplace_ptr top p)) :=
  acc_goto rfl (by simp) (fun t sh pc' sh' h => by cases h; exact acc_leave hidle href top)
    (hidle r)

theorem acc_enter (hidle : ∀ r e, Acc (Local n R) ⟨calls, [], r, e⟩)
    (hfind : ∀ top, Acc (Local n R) (.at_ calls fs r e T (.find top))) :
    Acc (Local n R) (.at_ calls fs r e T .readFlag) := by
  have hinsert : ∀ top, Acc (Local n R) (.at_ calls fs r e T (.insert top)) := fun top =>
    acc_goto rfl (by simp) (fun t sh pc' sh' h => by cases h; exact hfind top) (hidle r)
  have hsetFlag : Acc (Local n R) (.at_ calls fs r e T .setFlag) :=
    acc_goto rfl (by simp) (fun t sh pc' sh' h => by cases h; exact hinsert true) (hidle r)
  have hlock : Acc (Local n R) (.at_ calls fs r e T .lock) := by
    refine acc_goto rfl (by simp) (fun t sh pc' sh' h => ?_) (hidle r)
    simp only [advance] at h
    split at h <;> cases h
    exact hsetFlag
  have hcontains : Acc (Local n R) (.at_ calls fs r e T .contains) := by
    refine acc_goto rfl (by simp) (fun t sh pc' sh' h => ?_) (hidle r)
    simp only [advance] at h
    split at h <;> cases h
    exact hinsert false
  refine acc_goto rfl (by simp) (fun t sh pc' sh' h => ?_) (hidle r)
  cases h
  split
  · exact hcontains
  · exact hlock

/-- A `get<T>()` comes to an end, if all that `T` depends on do and its caller does afterwards. -/
theorem acc_get (hidle : ∀ r e, Acc (Local n R) ⟨calls, [], r, e⟩) (T : Hash_t)
    (fs : List Frame) (hret : ∀ p, Acc (Local n R) ((⟨calls, fs, r, e⟩ : Thread).return_ p fs)) :
    Acc (Local n R) (.at_ calls fs r e T .has_instance) := by
  induction T using R.acyclic.induction generalizing fs with
  | _ T ih =>
    have href : Acc (Local n R) (.at_ calls fs r e T .ref) := by
      refine acc_ref (fun p => ?_) (hidle r)
      cases fs <;> exact hret p
    have hleave := acc_leave hidle href
    have hptr := acc_emplace_ptr hidle href
    have hemplace : ∀ top, Acc (Local n R) (.at_ calls fs r e T (.emplace top)) := fun top =>
      acc_goto rfl (by simp) (fun t sh pc' sh' h => by cases h; exact hleave top) (hidle r)
    have himpl : ∀ top p, Acc (Local n R) (.at_ calls fs r e T (.emplace_impl top p)) := by
      refine fun top p => acc_goto rfl (by simp) (fun t sh pc' sh' h => ?_) (hidle r)
      cases h
      split
      · exact hleave top
      · exact hptr top none
    have hbound : ∀ top impl, R.recipeMap_ T = some (.bind impl) →
        Acc (Local n R) (.at_ calls fs r e T (.bound top impl)) := by
      intro top impl hr
      have hdep : DependsOn R.recipeMap_ T impl := by
        simp only [DependsOn, hr]
      exact acc_asks rfl (ih impl hdep _ fun p => himpl top p)
    -- over the requests that the recipe still makes
    have hbody : ∀ top b, (∀ U, Body.Asks b U → DependsOn R.recipeMap_ T U) →
        Acc (Local n R) (.at_ calls fs r e T (.body top b)) := by
      intro top b hb
      induction b with
      | new =>
        refine acc_goto rfl (by simp) (fun t sh pc' sh' h => ?_) (hidle r)
        simp only [advance] at h
        split at h <;> cases h
        · exact hleave top
        · exact hptr top _
      | get U k ihb =>
        refine acc_asks rfl (ih U (hb U (.here U k)) _ fun p => ?_)
        exact ihb p fun V hV => hb V (.there p hV)
    have hfind : ∀ top, Acc (Local n R) (.at_ calls fs r e T (.find top)) := by
      refine fun top => acc_goto rfl (by simp) (fun t sh pc' sh' h => ?_) (hidle r)
      simp only [advance] at h
      split at h
      · rename_i body hr
        cases h
        refine hbody top body fun U hU => ?_
        simp only [DependsOn, hr]
        exact hU
      · rename_i impl hr
        cases h
        exact hbound top impl hr
      · split at h
        · cases h
        · split at h
          · cases h
            exact hemplace top
          · cases h
    refine acc_goto rfl (by simp) (fun t sh pc' sh' h => ?_) (hidle r)
    cases h
    split
    · exact href
    · exact acc_enter hidle hfind

theorem acc_idle (calls : List Hash_t) (r : List (Option Addr)) (e : List Exn) :
    Acc (Local n R) ⟨calls, [], r, e⟩ := by
  induction calls generalizing r e with
  | nil => exact acc_idle_nil
  | cons T calls ih => exact acc_idle_cons (acc_get ih T [] fun p => ih _ _)

end

theorem step_interleave (h : Step R s t s') :
    Interleave (Local n R) s'.threads s.threads :=
  ⟨t, ⟨s, s', t, h, rfl, rfl⟩, fun _ hu => step_others h hu⟩

theorem init_ends (R : Recipes) (calls : Fin n → List Hash_t) (m : TypeMap) :
    Acc (fun s' s => ∃ t, Step R s t s') (Sys.init calls m) :=
  acc_of_interleave (fun _ _ ⟨_, h⟩ => step_interleave h) fun t => acc_idle (calls t) [] []

theorem run_ends {ok : Sys n → Fin n → Prop} (h : Acc (fun s' s => ∃ t, Step R s t s') s)
    (hr : RunUnder (Step R) ok s s') : Acc (fun s' s => ∃ t, Step R s t s') s' :=
  hr.invariant _ h fun _ t _ ht _ hs => ht.inv ⟨t, hs⟩

/-- As long as every `get` that misses its type does so when no other thread injects it and the type
can be made, no call throws, no recipe is run twice, and every call returns: some thread can go on
until all calls have ended, and they cannot go on for ever. -/
theorem injection_atomic (R : Recipes) (calls : Fin n → List Hash_t) (m : TypeMap) (s : Sys n)
    (h : RunUnder (Step R) (Alone R) (.init calls m) s) :
    (∀ t, (s.threads t).thrown = []) ∧ (∀ T, s.shared.ran.count T ≤ 1) ∧
    ((∃ t, ¬ (s.threads t).Done) → ∃ t s', Step R s t s') ∧
    ∀ f : ℕ → Sys n, f 0 = s → ¬ ∀ k, ∃ t, Step R (f k) t (f (k + 1)) := by
  have hinv := run_inv h
  refine ⟨hinv.thrown, hinv.exclusive.once, fun ⟨t, ht⟩ => progress hinv ht, ?_⟩
  exact fun f h0 => not_infinite (run_ends (init_ends R calls m) h) f h0

def twoTypes : Recipes where
  recipeMap_ T := if T = 1 then some (.fn (.get 2 fun _ => .new)) else none
  is_abstract _ := false
  default_initializable _ := true
  acyclic := by
    have h2 : ∀ U, ¬ DependsOn (fun T => if T = 1 then some (.fn (.get 2 fun _ => .new)) else none)
        2 U := fun U h => h
    refine ⟨fun T => ⟨_, fun U hU => ?_⟩⟩
    by_cases hT : T = 1
    · subst hT
      cases hU with
      | here => exact ⟨_, fun V hV => absurd hV (h2 V)⟩
      | there _ h => cases h
    · simp only [DependsOn, hT] at hU
      cases hU

/-- The first thread gets the type 1, the second the type 3 and then the type 1. -/
def twoThreads : Fin 2 → List Hash_t := fun t => if t = 0 then [1] else [3, 1]

/-- They take turns, and the second comes to the type 1 when the first has put it in the map. -/
def turns : List (Fin 2) :=
  List.replicate 6 0 ++ (List.replicate 10 [0, 1]).flatten ++ List.replicate 3 0 ++
    (List.replicate 3 [1, 0]).flatten ++ List.replicate 2 0

theorem twoTypes_returns :
    ∃ s : Sys 2, RunUnder (Step twoTypes) (Alone twoTypes) (.init twoThreads ∅) s ∧
      (s.threads 0).returned = [some (.obj 2)] ∧
      (s.threads 1).returned = [some (.obj 0), some (.obj 2)] ∧ s.shared.ran = [1] ∧
      (∀ t, (s.threads t).thrown = []) ∧ ∀ T, s.shared.ran.count T ≤ 1 := by
  obtain ⟨s, hs, hfirst, hsecond, hran⟩ : ∃ s : Sys 2,
      follow (fun t s => if Alone twoTypes s t then Sys.step twoTypes t s else none) turns
        (.init twoThreads ∅) = some s ∧
      (s.threads 0).returned = [some (.obj 2)] ∧
      (s.threads 1).returned = [some (.obj 0), some (.obj 2)] ∧ s.shared.ran = [1] :=
    ⟨_, rfl, rfl, rfl, rfl⟩
  have hrun : RunUnder (Step twoTypes) (Alone twoTypes) (.init twoThreads ∅) s :=
    runUnder_of_tested hs
  have hatomic := injection_atomic twoTypes twoThreads ∅ s hrun
  exact ⟨s, hrun, hfirst, hsecond, hran, hatomic.1, hatomic.2.1⟩

/-- Two threads miss the type 1. The second throws when it comes while the first has the flag set,
and runs the recipe again when it comes after the first. -/
theorem two_threads_collide :
    (∃ s : Sys 2, Run (Step twoTypes) (.init (fun _ => [1]) ∅) s ∧
      (s.threads 1).thrown = [.cycle 1]) ∧
    (∃ s : Sys 2, Run (Step twoTypes) (.init (fun _ => [1]) ∅) s ∧ s.shared.ran = [1, 1]) ∧
    ¬ ∀ (R : Recipes) (n : ℕ) (calls : Fin n → List Hash_t) (m : TypeMap) (s : Sys n),
      Run (Step R) (.init calls m) s → (∀ t T, .cycle T ∉ (s.threads t).thrown) ∧
        ∀ T, s.shared.ran.count T ≤ 1 := by
  have hcycle : ∃ s : Sys 2, follow (Sys.step twoTypes) (List.replicate 6 0 ++ List.replicate 4 1)
      (.init (fun _ => [1]) ∅) = some s ∧ (s.threads 1).thrown = [.cycle 1] := ⟨_, rfl, rfl⟩
  have htwice : ∃ s : Sys 2, follow (Sys.step twoTypes)
      (List.replicate 2 1 ++ List.replicate 24 0 ++ List.replicate 5 1)
      (.init (fun _ => [1]) ∅) = some s ∧ s.shared.ran = [1, 1] := ⟨_, rfl, rfl⟩
  obtain ⟨s, hs, hthrown⟩ := hcycle
  obtain ⟨s', hs', hran⟩ := htwice
  refine ⟨⟨s, run_of_follow hs, hthrown⟩, ⟨s', run_of_follow hs', hran⟩, fun h => ?_⟩
  have hno := (h twoTypes 2 (fun _ => [1]) ∅ s (run_of_follow hs)).1 1 1
  rw [hthrown] at hno
  simp at hno

end Omulator.Injection
