import Omulator.Di.Ownership

/-!
# Calls keep the ownership invariant

What a call logs, and that the type maps it leaves behind satisfy the invariant, whether it
returns or throws, provided that recipes return objects allocated for them.
-/

namespace Omulator.Di
open Omulator.Lib Comp

/-- The events that a call on `i` adds: it gives references that lead to `i` or above, it ends
the recipes it began, and it destroys and manages objects it allocated. -/
structure Made (i : ℕ) (w w' : World) (seg : List Event) : Prop where
  trace : w'.trace = w.trace ++ seg
  got : ∀ j U d, .got j U (some d) ∈ seg → Home w' i d
  ends : ∀ st p, .recipeEnd st p ∈ seg →
    w.trace.length ≤ st ∧ ∀ n, p = some (.obj n) → w.fresh ≤ n
  destroyed : ∀ a, .destroyed a ∈ seg → ∃ n, a = .obj n ∧ w.fresh ≤ n
  managed : ∀ j T a, .managed j T a ∈ seg → ∃ n, a = .obj n ∧ w.fresh ≤ n

structure Floating (w : World) (f n : ℕ) : Prop where
  since : f ≤ n
  lt : n < w.fresh
  left : .destroyed (.obj n) ∉ w.trace
  free : ∀ j T, ¬ Manages w j T (.obj n)

section
variable {ty : Types} {w w' w'' : World} {i : ℕ} {seg seg' : List Event}

theorem home_ext {k : ℕ} {d : Addr} (he : Ext k w w') (hw : w.WF) (hi : i < w.count)
    (h : Home w i d) : Home w' i d := by
  obtain ⟨seg, hseg⟩ := he.trace
  exact h.append hseg.symm fun j ha => ha.congr hw hi he.upstream

namespace Made

theorem nil (i : ℕ) (h : w'.trace = w.trace) : Made i w w' [] :=
  ⟨by simp [h], by simp, by simp, by simp, by simp⟩

theorem snoc (h : Made i w w' seg) (ht : w''.trace = w'.trace ++ seg')
    (hh : ∀ d, Home w' i d → Home w'' i d)
    (hgot : ∀ j U d, .got j U (some d) ∈ seg' → Home w'' i d)
    (hends : ∀ st p, .recipeEnd st p ∈ seg' →
      w.trace.length ≤ st ∧ ∀ n, p = some (.obj n) → w.fresh ≤ n)
    (hdestroyed : ∀ a, .destroyed a ∈ seg' → ∃ n, a = .obj n ∧ w.fresh ≤ n)
    (hmanaged : ∀ j T a, .managed j T a ∈ seg' → ∃ n, a = .obj n ∧ w.fresh ≤ n) :
    Made i w w'' (seg ++ seg') where
  trace := by rw [ht, h.trace, List.append_assoc]
  got j U d hd := (List.mem_append.mp hd).elim (fun hd => hh d (h.got j U d hd)) (hgot j U d)
  ends st p hd := (List.mem_append.mp hd).elim (h.ends st p) (hends st p)
  destroyed a hd := (List.mem_append.mp hd).elim (h.destroyed a) (hdestroyed a)
  managed j T a hd := (List.mem_append.mp hd).elim (h.managed j T a) (hmanaged j T a)

theorem trans (h : Made i w w' seg) (h' : Made i w' w'' seg') (hf : w.fresh ≤ w'.fresh)
    (hh : ∀ d, Home w' i d → Home w'' i d) : Made i w w'' (seg ++ seg') := by
  refine h.snoc h'.trace hh h'.got ?_ ?_ ?_
  · intro st p hd
    have hlen : w.trace.length ≤ w'.trace.length := by
      rw [h.trace, List.length_append]
      omega
    have he := h'.ends st p hd
    exact ⟨hlen.trans he.1, fun n hn => hf.trans (he.2 n hn)⟩
  · intro a hd
    obtain ⟨n, hn, hle⟩ := h'.destroyed a hd
    exact ⟨n, hn, hf.trans hle⟩
  · intro j T a hd
    obtain ⟨n, hn, hle⟩ := h'.managed j T a hd
    exact ⟨n, hn, hf.trans hle⟩

theorem up {p : ℕ} (h : Made p w w' seg) (ha : Anc w' p i) : Made i w w' seg :=
  { h with got := fun j U d hd => (h.got j U d hd).up ha }

theorem dead_iff (h : Made i w w' seg) (j : ℕ) : Dead w' j ↔ Dead w j := by
  unfold Dead
  rw [h.trace, List.mem_append]
  constructor
  · rintro (hd | hd)
    · exact hd
    · obtain ⟨n, hn, _⟩ := h.destroyed _ hd
      cases hn
  · exact Or.inl

theorem floating {f n : ℕ} (h : Made i w w' seg) (hf : w.fresh ≤ w'.fresh)
    (hn : Floating w f n) : Floating w' f n where
  since := hn.since
  lt := Nat.lt_of_lt_of_le hn.lt hf
  left := by
    rw [h.trace, List.mem_append]
    rintro (hd | hd)
    · exact hn.left hd
    · obtain ⟨m, hm, hle⟩ := h.destroyed _ hd
      cases hm
      have := hn.lt
      omega
  free j T := by
    unfold Manages
    rw [h.trace, List.mem_append]
    rintro (hd | hd)
    · exact hn.free j T hd
    · obtain ⟨m, hm, hle⟩ := h.managed j T _ hd
      cases hm
      have := hn.lt
      omega

theorem constructed (h : Made i w w' seg) (hinv : Inv ty w) {n : ℕ} (hn : w.fresh ≤ n)
    {d : Addr} (hc : ConstructedWith w'.trace (.obj n) d) : Home w' i d := by
  rw [h.trace] at hc
  have hbefore : ∀ st, .recipeEnd st (some (.obj n)) ∉ w.trace := by
    intro st hst
    have hlt := hinv.bound n (Or.inl ⟨st, hst⟩)
    omega
  obtain ⟨j, U, hg⟩ := hc.mem_seg hbefore fun st p hst => (h.ends st p hst).1
  exact h.got j U d hg

end Made

/-! ### Single steps -/

theorem mute_of_inj (hinj : ∀ j, (w'.inj j).recipeMap_ = (w.inj j).recipeMap_ ∧
      (w'.inj j).pUpstream_ = (w.inj j).pUpstream_ ∧
      (w'.inj j).invocationList_ = (w.inj j).invocationList_ ∧
      (w'.inj j).typeMap_ = (w.inj j).typeMap_)
    (hc : w'.count = w.count) (hf : w.fresh ≤ w'.fresh) (ht : w'.trace = w.trace ++ seg)
    (hm : ∀ j T a, .managed j T a ∉ seg)
    (hd : ∀ a, .destroyed a ∈ seg → ∃ n < w'.fresh, a = .obj n ∧ ∀ j T, ¬ Manages w j T a)
    (he : ∀ st n, .recipeEnd st (some (.obj n)) ∈ seg →
      n < w'.fresh ∧ ∀ j T, ¬ Manages w j T (.obj n)) : Mute w w' seg where
  count := hc
  fresh := hf
  trace := ht
  recipes j T r h := Or.inl ((hinj j).1 ▸ h)
  upstream j := (hinj j).2.1
  list j := (hinj j).2.2.1
  keep j T c h := by rw [(hinj j).2.2.2]; exact h
  new j T c h := by rw [(hinj j).2.2.2] at h; exact Or.inl h
  managed := hm
  destroyed := hd
  ends := he

theorem mute_emit {e : Event} (w : World) (hm : ∀ j T a, e ≠ .managed j T a)
    (hd : ∀ a, e ≠ .destroyed a)
    (he : ∀ st n, e = .recipeEnd st (some (.obj n)) →
      n < w.fresh ∧ ∀ j T, ¬ Manages w j T (.obj n)) : Mute w (w.emit e) [e] := by
  refine mute_of_inj (fun _ => ⟨rfl, rfl, rfl, rfl⟩) rfl le_rfl rfl ?_ ?_ ?_
  · intro j T a h
    exact hm j T a (List.mem_singleton.mp h).symm
  · intro a h
    exact absurd (List.mem_singleton.mp h).symm (hd a)
  · intro st n h
    exact he st n (List.mem_singleton.mp h).symm

theorem made_emit {e : Event} (w : World) (hm : ∀ j T a, e ≠ .managed j T a)
    (hd : ∀ a, e ≠ .destroyed a) (hg : ∀ j U d, e = .got j U (some d) → Home (w.emit e) i d)
    (he : ∀ st p, e = .recipeEnd st p →
      w.trace.length ≤ st ∧ ∀ n, p = some (.obj n) → w.fresh ≤ n) :
    Made i w (w.emit e) [e] where
  trace := rfl
  got j U d h := hg j U d (List.mem_singleton.mp h).symm
  ends st p h := he st p (List.mem_singleton.mp h).symm
  destroyed a h := absurd (List.mem_singleton.mp h).symm (hd a)
  managed j T a h := absurd (List.mem_singleton.mp h).symm (hm j T a)

theorem mute_alloc (w : World) : Mute w w.alloc [] :=
  mute_of_inj (fun _ => ⟨rfl, rfl, rfl, rfl⟩) rfl (Nat.le_succ _) (by simp) (by simp) (by simp)
    (by simp)

theorem mute_enter (i : ℕ) (T : Hash_t) (w : World) : Mute w (enter i T w) [] := by
  refine mute_of_inj (fun j => ?_) rfl le_rfl (by simp) (by simp) (by simp) (by simp)
  by_cases hj : j = i
  · rw [hj, enter_inj_self]
    exact ⟨rfl, rfl, rfl, rfl⟩
  · rw [enter_inj_ne hj]
    exact ⟨rfl, rfl, rfl, rfl⟩

theorem mute_leave (i : ℕ) (T : Hash_t) (b : Bool) (w : World) :
    Mute w (leave i T .NEW_VALUE b w) [] := by
  refine mute_of_inj (fun j => ?_) (by simp) (by simp) (by simp) (by simp) (by simp) (by simp)
  by_cases hj : j = i
  · rw [hj, leave_inj_self]
    exact ⟨rfl, rfl, by simp, rfl⟩
  · rw [leave_inj_ne hj]
    exact ⟨rfl, rfl, rfl, rfl⟩

theorem lists_leave (i : ℕ) (T : Hash_t) (b : Bool) (w : World) :
    Lists i T w (leave i T .REFERENCE b w) where
  count := by simp
  fresh := by simp
  trace := by simp
  recipes j := leave_recipes i j T _ b w
  upstream j := leave_upstream i j T _ b w
  typeMap j := leave_typeMap i j T _ b w
  list j hj := by rw [leave_inj_ne hj]
  listed := by rw [leave_inj_self]; simp

theorem floating_alloc (h : Inv ty w) {f : ℕ} (hf : f ≤ w.fresh) :
    Floating w.alloc f w.fresh where
  since := hf
  lt := Nat.lt_succ_self _
  left hd := by
    have hlt := h.bound w.fresh (Or.inr hd)
    omega
  free j T hm := by
    obtain ⟨_, _, n, hn, he⟩ := h.managed j T _ hm
    cases he
    omega

theorem mute_onTypeMap {o : ℕ} {T : Hash_t} {g : TypeMap → TypeMap × List Addr}
    {c : TypeContainer} (w : World) (hdel : (g (w.inj o).typeMap_).2 = [])
    (hother : ∀ U, U ≠ T → (g (w.inj o).typeMap_).1.lookup U = (w.inj o).typeMap_.lookup U)
    (hentry : (g (w.inj o).typeMap_).1.lookup T = some (((w.inj o).typeMap_.lookup T).getD c))
    (hown : ∀ a, c ≠ ⟨some a, true⟩) (hhome : ∀ d, c.ptr_ = some d → Home w o d) :
    Mute w (w.onTypeMap o g) [] where
  count := rfl
  fresh := le_rfl
  trace := by simp [hdel]
  recipes j U r h := by
    by_cases hj : j = o
    · subst hj
      rw [World.onTypeMap_inj_self] at h
      exact Or.inl h
    · rw [World.onTypeMap_inj_ne _ _ _ _ hj] at h
      exact Or.inl h
  upstream j := by
    by_cases hj : j = o
    · rw [hj, World.onTypeMap_inj_self]
    · rw [World.onTypeMap_inj_ne _ _ _ _ hj]
  list j := by
    by_cases hj : j = o
    · rw [hj, World.onTypeMap_inj_self]
    · rw [World.onTypeMap_inj_ne _ _ _ _ hj]
  keep j U c' h := by
    by_cases hj : j = o
    · subst hj
      rw [World.onTypeMap_inj_self]
      by_cases hU : U = T
      · subst hU
        rw [hentry, h, Option.getD_some]
      · rw [hother U hU, h]
    · rw [World.onTypeMap_inj_ne _ _ _ _ hj, h]
  new j U c' h := by
    by_cases hj : j = o
    · subst hj
      rw [World.onTypeMap_inj_self] at h
      by_cases hU : U = T
      · subst hU
        rw [hentry] at h
        cases hl : (w.inj j).typeMap_.lookup U with
        | some c₀ =>
          rw [hl, Option.getD_some] at h
          exact Or.inl h
        | none =>
          rw [hl, Option.getD_none] at h
          cases h
          exact Or.inr ⟨hown, hhome⟩
      · rw [hother U hU] at h
        exact Or.inl h
    · rw [World.onTypeMap_inj_ne _ _ _ _ hj] at h
      exact Or.inl h
  managed := by simp
  destroyed := by simp
  ends := by simp

end

/-! ### Every call keeps the invariant -/

structure Live (ty : Types) (i : ℕ) (w : World) : Prop where
  inv : Inv ty w
  lt : i < w.count
  live : ¬ Dead w i

structure Kept (ty : Types) (i : ℕ) (w w' : World) : Prop where
  inv : Inv ty w'
  ext : Ext i w w'
  made : ∃ seg, Made i w w' seg

section
variable {ty : Types} {w w' w'' : World} {i : ℕ} {T : Hash_t}

theorem Kept.live (h : Kept ty i w w') (hw : Live ty i w) : Live ty i w' where
  inv := h.inv
  lt := Nat.lt_of_lt_of_le hw.lt h.ext.count
  live := by
    obtain ⟨seg, hm⟩ := h.made
    exact fun hd => hw.live ((hm.dead_iff i).mp hd)

theorem Kept.trans (hw : Live ty i w) (h : Kept ty i w w') (h' : Kept ty i w' w'') :
    Kept ty i w w'' where
  inv := h'.inv
  ext := h.ext.trans hw.lt h'.ext
  made := by
    obtain ⟨seg, hm⟩ := h.made
    obtain ⟨seg', hm'⟩ := h'.made
    exact ⟨seg ++ seg', hm.trans hm' h.ext.fresh fun d =>
      home_ext h'.ext h.inv.wf (h.live hw).lt⟩

theorem Kept.refl (h : Live ty i w) : Kept ty i w w :=
  ⟨h.inv, .refl i w, [], .nil i rfl⟩

theorem Kept.up {p : ℕ} (hw : Live ty i w) (h : Kept ty p w w') (ha : Anc w p i) :
    Kept ty i w w' where
  inv := h.inv
  ext := h.ext.up (ha.le hw.inv.wf hw.lt)
  made := by
    obtain ⟨seg, hm⟩ := h.made
    exact ⟨seg, hm.up (ha.congr hw.inv.wf hw.lt h.ext.upstream)⟩

theorem Kept.floating {f n : ℕ} (h : Kept ty i w w') (hn : Floating w f n) : Floating w' f n := by
  obtain ⟨seg, hm⟩ := h.made
  exact hm.floating h.ext.fresh hn

theorem Live.anc {p : ℕ} (h : Live ty i w) (ha : Anc w p i) : Live ty p w :=
  ⟨h.inv, (h.inv.anc_alive h.lt h.live ha).1, (h.inv.anc_alive h.lt h.live ha).2⟩

theorem kept_emit {e : Event} (h : Live ty i w) (hm : ∀ j T a, e ≠ .managed j T a)
    (hd : ∀ a, e ≠ .destroyed a) (hr : ∀ st p, e ≠ .recipeEnd st p)
    (hg : ∀ j U d, e = .got j U (some d) → Home w i d) : Kept ty i w (w.emit e) where
  inv := h.inv.mute (mute_emit w hm hd fun st n he => absurd he (hr st _))
  ext := .emit i w e
  made := by
    refine ⟨[e], made_emit w hm hd (fun j U d he => ?_) fun st p he => absurd he (hr st p)⟩
    have hup : ∀ j, ((w.emit e).inj j).pUpstream_ = (w.inj j).pUpstream_ := fun _ => rfl
    exact (hg j U d he).append rfl fun k => anc_of_upstream hup

/-- What `get` gives leads home; what `creat` gives is nobody's. -/
def Gained (c : Call) (w : World) (r : Outcome) (w' : World) : Prop :=
  match c.kind with
  | .get => ∀ d, r = .ok (some d) → Home w' c.inj d
  | .creat => ∀ n, r = .ok (some (.obj n)) → Floating w' w.fresh n

abbrev KeepsAll (ty : Types) (rec : Call → M (Option Addr)) : Prop :=
  ∀ c w, Live ty c.inj w → wp (rec c) (fun r w' => Kept ty c.inj w w' ∧ Gained c w r w') w

variable {rec : Call → M (Option Addr)}

theorem runProg_kept (hrec : KeepsAll ty rec) (p : Prog) (S : Finset ℕ) (f : ℕ)
    (hw : Live ty i w) (hf : f ≤ w.fresh) (hS : ∀ n ∈ S, Floating w f n) (hp : p.Fresh S) :
    wp (runProg rec i p) (fun r w' => Kept ty i w w' ∧
      ∀ p, r = .ok p → ∃ n, p = some (.obj n) ∧ Floating w' f n) w := by
  induction p generalizing S w with
  | new =>
    simp only [runProg, wp_look, wp_change, wp_ret]
    have hk : Kept ty i w w.alloc :=
      ⟨hw.inv.mute (mute_alloc w), .alloc i w, [], .nil i rfl⟩
    refine ⟨hk, fun p hp => ?_⟩
    cases hp
    exact ⟨_, rfl, floating_alloc hw.inv hf⟩
  | ret p =>
    refine (wp_ret _).mpr ⟨.refl hw, fun p' hp' => ?_⟩
    cases hp'
    obtain ⟨n, hn, hpn⟩ := hp
    exact ⟨n, hpn, hS n hn⟩
  | throw e => exact (wp_raise _).mpr ⟨.refl hw, fun p hp => by cases hp⟩
  | get U k ih =>
    rw [runProg, wp_attempt]
    refine wp_mono (hrec ⟨.get, i, U⟩ w hw) ?_
    rintro r w₁ ⟨hk, -⟩
    refine wp_mono (ih r S (hk.live hw) (hf.trans hk.ext.fresh)
      (fun n hn => hk.floating (hS n hn)) (hp r)) ?_
    rintro r' w₂ ⟨hk', hr'⟩
    exact ⟨hk.trans hw hk', hr'⟩
  | creat U k ih =>
    rw [runProg, wp_attempt]
    refine wp_mono (hrec ⟨.creat, i, U⟩ w hw) ?_
    rintro r w₁ ⟨hk, hgain⟩
    refine wp_mono (ih r _ (hk.live hw) (hf.trans hk.ext.fresh) ?_ (hp r)) ?_
    · intro n hn
      have hold : ∀ n ∈ S, Floating w₁ f n := fun n hn => hk.floating (hS n hn)
      rcases r with e | _ | (j | m)
      · exact hold n hn
      · exact hold n hn
      · exact hold n hn
      · rcases Finset.mem_insert.mp hn with rfl | hn
        · have hfl := hgain n rfl
          exact ⟨hf.trans hfl.since, hfl.lt, hfl.left, hfl.free⟩
        · exact hold n hn
    · rintro r' w₂ ⟨hk', hr'⟩
      exact ⟨hk.trans hw hk', hr'⟩

theorem emplace_impl_mute (w : World) (o : ℕ) (T : Hash_t) (p : Option Addr)
    (hp : ∀ d, p = some d → Home w o d) : Mute w (w.emplace_impl o T p) [] := by
  refine mute_onTypeMap w ?_ ?_ (TypeMap.emplace_impl_lookup _ T p) (by simp) hp
  · cases h : (w.inj o).typeMap_.has_key T with
    | true => simp [TypeMap.emplace_impl_of_has h]
    | false => simp [TypeMap.emplace_impl_of_not_has h]
  · intro U hU
    exact ((w.inj o).typeMap_.adds_emplace_impl T p).1 U hU

theorem Kept.then_mute {seg : List Event} (h : Kept ty i w w')
    (hm : Mute w' w'' seg) (he : Ext i w w'') (hmade : Made i w' w'' seg) : Kept ty i w w'' where
  inv := h.inv.mute hm
  ext := he
  made := by
    obtain ⟨seg₀, hm₀⟩ := h.made
    refine ⟨seg₀ ++ seg, hm₀.trans hmade h.ext.fresh fun d hd => ?_⟩
    exact hd.append hm.trace fun k => anc_of_upstream hm.upstream

/-- What the recipe for `T` on `o` has done: up to `w₁` it made requests; `p` is its result. -/
structure Supplies (ty : Types) (o : ℕ) (T : Hash_t) (w w₁ w' : World) : Prop where
  kept : Kept ty o w w₁
  placed : Placed o T w₁ w'
  inv : Inv ty w'
  made : ∃ seg, Made o w w' seg
  manages : ∀ j U a, Manages w' j U a → Manages w₁ j U a

def Returned (T : Hash_t) (w w₁ w' : World) (p : Option Addr) : Prop :=
  p = none ∨ (∃ n, p = some (.obj n) ∧ Floating w' w.fresh n ∧ w'.inj = w₁.inj) ∨
  ∃ k, p = some (.injector k) ∧ T = injectorHash

theorem recipeEnd_supplies {o : ℕ} {w₁ w₂ : World} {p : Option Addr} (hk : Kept ty o w w₁)
    (hm : Mute w₁ w₂ []) (hp : Placed o T w₁ w₂)
    (hret : ∀ n, p = some (.obj n) → Floating w₂ w.fresh n) :
    Supplies ty o T w w₁ (w₂.emit (.recipeEnd w.trace.length p)) where
  kept := hk
  placed := hp.emit _
  inv := by
    refine (hk.inv.mute hm).mute (mute_emit w₂ (by simp) (by simp) fun st n he => ?_)
    cases he
    exact ⟨(hret n rfl).lt, (hret n rfl).free⟩
  made := by
    obtain ⟨seg, hmade⟩ := hk.made
    have htr : w₂.trace = w₁.trace := by simpa using hm.trace
    have hup : ∀ j, ((w₂.emit (.recipeEnd w.trace.length p)).inj j).pUpstream_ =
        (w₁.inj j).pUpstream_ := hm.upstream
    have hanc : ∀ k, Anc w₁ k o → Anc (w₂.emit (.recipeEnd w.trace.length p)) k o :=
      fun k => anc_of_upstream hup
    have hend : (w₂.emit (.recipeEnd w.trace.length p)).trace =
        w₁.trace ++ [.recipeEnd w.trace.length p] := by rw [World.emit_trace, htr]
    refine ⟨_, hmade.snoc hend ?_ (by simp) ?_ (by simp) (by simp)⟩
    · exact fun d hd => hd.append hend hanc
    · intro st q hq
      cases List.mem_singleton.mp hq
      exact ⟨le_rfl, fun n hn => (hret n hn).since⟩
  manages j U a ha := by
    have ha' : Manages w₂ j U a := by
      unfold Manages at ha ⊢
      simpa using ha
    exact (hm.manages_iff j U a).mp ha'

theorem recipeClosure_kept (hrec : KeepsAll ty rec) {o : ℕ} (recipe : Recipe) (hw : Live ty o w)
    (hl : (w.inj o).recipeMap_.lookup T = some recipe) :
    wp (recipeClosure rec o T recipe i) (fun r w' => ∃ w₁, Supplies ty o T w w₁ w' ∧
      ∀ c, r = .ok c → ∃ p, c = ⟨p, true⟩ ∧ Returned T w w₁ w' p) w := by
  have hk₀ : Kept ty o w (w.emit (.recipe T i o)) :=
    kept_emit hw (by simp) (by simp) (by simp) (by simp)
  have hfail : ∀ {e : Exn} {w₁ : World}, Kept ty o w w₁ →
      ∃ w₀, Supplies ty o T w w₀ w₁ ∧ ∀ c, (.error e : Except Exn TypeContainer) = .ok c →
        ∃ p, c = ⟨p, true⟩ ∧ Returned T w w₀ w₁ p := fun hk =>
    ⟨_, ⟨hk, .refl o T _, hk.inv, hk.made, fun _ _ _ h => h⟩, by simp⟩
  refine wp_recipeClosure_cases rec (fun body hb => ?_) (fun impl _ => ?_) fun hc => ?_
  · subst hb
    have hfresh : (body w.trace.length).Fresh ∅ := hw.inv.fresh o T body hw.lt hl _
    refine wp_mono (runProg_kept hrec _ ∅ w.fresh (hk₀.live hw) le_rfl (by simp) hfresh) ?_
    rintro r w₁ ⟨hk, hr⟩
    have hk₁ := hk₀.trans hw hk
    cases r with
    | error e => exact hfail hk₁
    | ok p =>
      obtain ⟨n, hpn, hfl⟩ := hr p rfl
      subst hpn
      refine ⟨w₁, recipeEnd_supplies hk₁ ?_ (.refl o T w₁) ?_, ?_⟩
      · exact mute_of_inj (fun _ => ⟨rfl, rfl, rfl, rfl⟩) rfl le_rfl (by simp) (by simp) (by simp)
          (by simp)
      · intro m hm
        cases hm
        exact hfl
      · intro c hc
        cases hc
        have hfl' : Floating (w₁.emit (.recipeEnd w.trace.length (some (.obj n)))) w.fresh n :=
          ⟨hfl.since, hfl.lt, by simpa using hfl.left, fun j U => by
            simpa [Manages] using hfl.free j U⟩
        exact ⟨_, rfl, Or.inr (Or.inl ⟨n, rfl, hfl', rfl⟩)⟩
  · refine wp_mono (hrec ⟨.get, o, impl⟩ _ (hk₀.live hw)) ?_
    rintro r w₁ ⟨hk, hgain⟩
    have hk₁ := hk₀.trans hw hk
    cases r with
    | error e => exact hfail hk₁
    | ok p =>
      have hhome : ∀ d, p = some d → Home w₁ o d := fun d hd => hgain d (by rw [hd])
      refine ⟨w₁, recipeEnd_supplies hk₁ (emplace_impl_mute w₁ o T p hhome)
        (.emplace_impl o T p w₁) (by simp), ?_⟩
      intro c hc
      cases hc
      exact ⟨_, rfl, Or.inl rfl⟩
  · subst hc
    have hT := hw.inv.child o T hw.lt hl
    have hw' := hk₀.live hw
    have hk : Kept ty o (w.emit (.recipe T i o)) ((w.emit (.recipe T i o)).newChild o) :=
      ⟨hw'.inv.newChild hw'.lt hw'.live, .newChild o _, [], .nil o rfl⟩
    refine ⟨_, recipeEnd_supplies (hk₀.trans hw hk) ?_ (.refl o T _) (by simp), ?_⟩
    · exact mute_of_inj (fun _ => ⟨rfl, rfl, rfl, rfl⟩) rfl le_rfl (by simp) (by simp) (by simp)
        (by simp)
    · intro c hc
      cases hc
      exact ⟨_, rfl, Or.inr (Or.inr ⟨_, rfl, hT⟩)⟩

def Formed (ty : Types) (i : ℕ) (d : DepType_t) (w : World) (c : TypeContainer) (w' : World) :
    Prop :=
  Kept ty i w w' ∧ (d = .NEW_VALUE → ∀ n, c.ptr_ = some (.obj n) → Floating w' w.fresh n)

theorem leave_kept {d : DepType_t} {b : Bool} {w₁ : World} (hk : Kept ty i w w₁)
    (he : Ext i w (leave i T d b w₁))
    (hT : d = .REFERENCE → (∀ a, ¬ Manages w₁ i T a) ∧
      (ty.is_abstract T = false → ∃ c, (w₁.inj i).typeMap_.lookup T = some c)) :
    Kept ty i w (leave i T d b w₁) where
  inv := by
    cases d with
    | NEW_VALUE => exact hk.inv.mute (mute_leave i T b w₁)
    | REFERENCE => exact hk.inv.lists (hT rfl).1 (hT rfl).2 (lists_leave i T b w₁)
  ext := he
  made := by
    obtain ⟨seg, hm⟩ := hk.made
    have hn : Made i w₁ (leave i T d b w₁) [] := .nil i (leave_trace i T d b w₁)
    refine ⟨seg ++ [], hm.trans hn hk.ext.fresh fun e hh => ?_⟩
    have hup : ∀ j, ((leave i T d b w₁).inj j).pUpstream_ = (w₁.inj j).pUpstream_ :=
      fun j => leave_upstream i j T d b w₁
    have htrace : (leave i T d b w₁).trace = w₁.trace ++ [] := by simp
    exact hh.append htrace fun k => anc_of_upstream hup

theorem takes_kept {n : ℕ} {w₁ w₂ : World} (hw : Live ty i w) (hk : Kept ty i w w₁)
    (hfl : Floating w₁ w.fresh n) (hnone : (w₁.inj i).typeMap_.lookup T = none)
    (hab : ty.is_abstract T = false) (ht : Takes i T (.obj n) w₁ w₂) (he : Ext i w w₂) :
    Kept ty i w w₂ := by
  have hl := hk.live hw
  obtain ⟨seg, hm⟩ := hk.made
  have hc : ∀ d, ConstructedWith w₁.trace (.obj n) d → Home w₁ i d :=
    fun d hd => hm.constructed hw.inv hfl.since hd
  refine ⟨hk.inv.takes hl.lt hl.live hnone hab ⟨n, hfl.lt, rfl⟩ hfl.left hfl.free hc ht, he, ?_⟩
  refine ⟨_, hm.snoc ht.trace ?_ (by simp) (by simp) (by simp) ?_⟩
  · exact fun d hd => hd.append ht.trace fun k => anc_of_upstream ht.upstream
  · intro j U a ha
    cases List.mem_singleton.mp ha
    exact ⟨n, rfl, hfl.since⟩

theorem destroyAll_kept {w₂ : World} {p : Option Addr} (hk : Kept ty i w w₂)
    (hp : ∀ a, p = some a → ∃ n, a = .obj n ∧ Floating w₂ w.fresh n)
    (he : Ext i w (w₂.destroyAll p.toList)) : Kept ty i w (w₂.destroyAll p.toList) ∧
      ∀ a, Manages (w₂.destroyAll p.toList) i T a → Manages w₂ i T a := by
  have hdel : ∀ a, .destroyed a ∈ p.toList.map Event.destroyed →
      ∃ n, a = .obj n ∧ Floating w₂ w.fresh n := by
    intro a ha
    obtain ⟨a', ha', he⟩ := List.mem_map.mp ha
    cases he
    exact hp a (Option.mem_toList.mp ha')
  have hm : Mute w₂ (w₂.destroyAll p.toList) (p.toList.map .destroyed) := by
    refine mute_of_inj (fun _ => ⟨rfl, rfl, rfl, rfl⟩) rfl le_rfl rfl (by simp) ?_ (by simp)
    intro a ha
    obtain ⟨n, rfl, hfl⟩ := hdel a ha
    exact ⟨n, hfl.lt, rfl, hfl.free⟩
  refine ⟨⟨hk.inv.mute hm, he, ?_⟩, fun a ha => (hm.manages_iff i T a).mp ha⟩
  obtain ⟨seg, hmade⟩ := hk.made
  refine ⟨_, hmade.snoc hm.trace ?_ (by simp) (by simp) ?_ (by simp)⟩
  · exact fun d hd => hd.append hm.trace fun k => anc_of_upstream hm.upstream
  · intro a ha
    obtain ⟨n, rfl, hfl⟩ := hdel a ha
    exact ⟨n, rfl, hfl.since⟩

theorem emplace_ptr_none_mute (w : World) (i : ℕ) (T : Hash_t) :
    Mute w (w.onTypeMap i (·.emplace_ptr T none)) [] := by
  refine mute_onTypeMap w ?_ ?_ (TypeMap.emplace_ptr_lookup _ T none) (by simp) (by simp)
  · cases h : (w.inj i).typeMap_.has_key T with
    | true => simp [TypeMap.emplace_ptr_of_has h]
    | false => simp [TypeMap.emplace_ptr_of_not_has h]
  · intro U hU
    exact ((w.inj i).typeMap_.adds_emplace_ptr T none).1 U hU

theorem emplace_ptr_takes {n : ℕ} {b : Bool} (w : World)
    (hnone : (w.inj i).typeMap_.lookup T = none) :
    Takes i T (.obj n) w (leave i T .REFERENCE b (w.emplace_ptr i T (some (.obj n)))) := by
  have hno : (w.inj i).typeMap_.has_key T = false := (TypeMap.not_has_key_iff _ T).mpr hnone
  have he : w.emplace_ptr i T (some (.obj n)) =
      (w.onTypeMap i (·.emplace_ptr T (some (.obj n)))).emit (.managed i T (.obj n)) := by
    simp [World.emplace_ptr, World.has_instance, hno]
  have hl := lists_leave i T b (w.emplace_ptr i T (some (.obj n)))
  have hp := Placed.emplace_ptr i T (some (.obj n)) w
  refine ⟨hl.count.trans hp.count, ?_, ?_, ?_, ?_, ?_, ?_, ?_, ?_⟩
  · rw [hl.fresh, he]
    rfl
  · rw [hl.trace, he, World.emit_trace, World.onTypeMap_trace, TypeMap.emplace_ptr_of_not_has hno]
    simp
  · exact fun j => (hl.recipes j).trans (hp.stays j).1
  · exact fun j => (hl.upstream j).trans (hp.stays j).2.2.2.2
  · exact fun j hj => (hl.list j hj).trans (hp.stays j).2.1
  · rw [hl.listed, (hp.stays i).2.1]
  · intro j U hne
    rw [hl.typeMap, hp.lookup_ne hne]
  · rw [hl.typeMap, he, World.emit_inj, World.onTypeMap_inj_self, TypeMap.emplace_ptr_lookup,
      hnone, Option.getD_none]

theorem emplace_takes {b : Bool} (w : World) (hnone : (w.inj i).typeMap_.lookup T = none) :
    Takes i T (.obj w.fresh) (w.alloc.emit (.built T (.obj w.fresh)))
      (leave i T .REFERENCE b (((w.alloc.onTypeMap i (·.emplace T (some (.obj w.fresh)))).emit
        (.built T (.obj w.fresh))).emit (.managed i T (.obj w.fresh)))) := by
  have hno : (w.inj i).typeMap_.has_key T = false := (TypeMap.not_has_key_iff _ T).mpr hnone
  have hadds : ∀ m : TypeMap, m.Adds T (m.emplace T (some (.obj w.fresh))).1 := fun m =>
    m.adds_emplace T _
  have hp : Placed i T w.alloc (((w.alloc.onTypeMap i (·.emplace T (some (.obj w.fresh)))).emit
      (.built T (.obj w.fresh))).emit (.managed i T (.obj w.fresh))) :=
    ((Placed.onTypeMap i T w.alloc _ hadds).emit _).emit _
  have hl := lists_leave i T b (((w.alloc.onTypeMap i (·.emplace T (some (.obj w.fresh)))).emit
    (.built T (.obj w.fresh))).emit (.managed i T (.obj w.fresh)))
  refine ⟨hl.count.trans hp.count, hl.fresh, ?_, ?_, ?_, ?_, ?_, ?_, ?_⟩
  · rw [hl.trace]
    simp [TypeMap.emplace_of_not_has hno]
  · exact fun j => (hl.recipes j).trans (hp.stays j).1
  · exact fun j => (hl.upstream j).trans (hp.stays j).2.2.2.2
  · exact fun j hj => (hl.list j hj).trans (hp.stays j).2.1
  · rw [hl.listed, (hp.stays i).2.1]
    rfl
  · intro j U hne
    rw [hl.typeMap, hp.lookup_ne hne]
    rfl
  · rw [hl.typeMap, World.emit_inj, World.emit_inj, World.onTypeMap_inj_self,
      TypeMap.emplace_lookup, World.alloc_inj, hnone, Option.getD_none]
    rfl

theorem place_kept {d : DepType_t} {b : Bool}
    {w₀ w₁ w₂ : World} {p : Option Addr} (hw : Live ty i w) (hk : Kept ty i w w₂)
    (hw₀ : w₀.fresh = w.fresh) (hret : Returned T w₀ w₁ w₂ p)
    (hman : d = .REFERENCE → ∀ a, ¬ Manages w₂ i T a)
    (hnone : d = .REFERENCE → (w₁.inj i).typeMap_.lookup T = none)
    (hne : d = .REFERENCE → T ≠ injectorHash) :
    wp (place ty i T d ⟨p, true⟩) (fun r w₃ => ∃ c, r = .ok c ∧
      (Ext i w w₃ → Ext i w (leave i T d b w₃) → Formed ty i d w c (leave i T d b w₃))) w₂ := by
  refine wp_place ty (fun hab => ⟨_, rfl, fun he hel => ⟨?_, by simp⟩⟩) (fun hab hd => ?_)
    fun hab hd => ?_
  · have hp : ∀ a, p = some a → ∃ n, a = .obj n ∧ Floating w₂ w.fresh n := by
      intro a ha
      rcases hret with hp | ⟨n, hp, hfl, _⟩ | ⟨k, _, hT⟩
      · rw [hp] at ha
        cases ha
      · rw [hp] at ha
        cases ha
        exact ⟨n, rfl, hw₀ ▸ hfl⟩
      · rw [hT, ty.injector_concrete] at hab
        cases hab
    obtain ⟨hk₃, hman₃⟩ := destroyAll_kept hk hp he
    refine leave_kept hk₃ hel fun hd => ⟨fun a ha => hman hd a (hman₃ a ha), fun hab' => ?_⟩
    rw [hab] at hab'
    cases hab'
  · subst hd
    refine ⟨_, rfl, fun he hel => ⟨leave_kept hk hel (by simp), ?_⟩⟩
    intro _ n hn
    have hpn : p = some (.obj n) := hn
    have hfl : Floating w₂ w.fresh n := by
      rcases hret with hp | ⟨m, hp, hfl, _⟩ | ⟨k, hp, _⟩
      · rw [hp] at hpn
        cases hpn
      · rw [hp] at hpn
        cases hpn
        exact hw₀ ▸ hfl
      · rw [hp] at hpn
        cases hpn
    have hnil : Made i w₂ (leave i T .NEW_VALUE b w₂) [] := .nil i (leave_trace ..)
    exact hnil.floating (by simp) hfl
  · subst hd
    refine ⟨_, rfl, fun he hel => ⟨?_, by simp⟩⟩
    rcases hret with hp | ⟨n, hp, hfl, hinj₁⟩ | ⟨k, _, hT⟩
    · subst hp
      have hm := emplace_ptr_none_mute w₂ i T
      have hk₃ : Kept ty i w (w₂.onTypeMap i (·.emplace_ptr T none)) :=
        hk.then_mute hm he (.nil i (by simpa using hm.trace))
      have hent : ((w₂.onTypeMap i (·.emplace_ptr T none)).inj i).typeMap_.lookup T =
          some (((w₂.inj i).typeMap_.lookup T).getD ⟨none, true⟩) := by
        rw [World.onTypeMap_inj_self]
        exact TypeMap.emplace_ptr_lookup _ T none
      refine leave_kept hk₃ hel fun _ => ⟨fun a ha => ?_, fun _ => ⟨_, hent⟩⟩
      exact hman rfl a ((hm.manages_iff i T a).mp ha)
    · subst hp
      have hfree : (w₂.inj i).typeMap_.lookup T = none := by
        rw [hinj₁]
        exact hnone rfl
      exact takes_kept hw hk (hw₀ ▸ hfl) hfree hab (emplace_ptr_takes w₂ hfree) hel
    · exact absurd hT (hne rfl)

theorem createInstance_kept {b : Bool} {w₁ : World} (hk : Kept ty i w w₁) :
    wp (createInstance ty T) (fun r w₂ => match r with
      | .error _ => Ext i w w₂ → Kept ty i w w₂
      | .ok c => Ext i w w₂ → Ext i w (leave i T .NEW_VALUE b w₂) →
          Formed ty i .NEW_VALUE w c (leave i T .NEW_VALUE b w₂)) w₁ := by
  refine wp_createInstance ty (fun _ _ _ => hk) fun _ he hel => ?_
  have hm : Mute w₁ (w₁.alloc.emit (.built T (.obj w₁.fresh))) [.built T (.obj w₁.fresh)] :=
    mute_of_inj (fun _ => ⟨rfl, rfl, rfl, rfl⟩) rfl (Nat.le_succ _) rfl (by simp) (by simp)
      (by simp)
  have hmade : Made i w₁ (w₁.alloc.emit (.built T (.obj w₁.fresh)))
      [.built T (.obj w₁.fresh)] := ⟨rfl, by simp, by simp, by simp, by simp⟩
  refine ⟨leave_kept (hk.then_mute hm he hmade) hel (by simp), fun _ n hn => ?_⟩
  cases hn
  have hfl := floating_alloc hk.inv hk.ext.fresh
  have hfl' : Floating (w₁.alloc.emit (.built T (.obj w₁.fresh))) w.fresh w₁.fresh :=
    ⟨hfl.since, hfl.lt, by simpa using hfl.left, fun j U => by
      simpa [Manages] using hfl.free j U⟩
  have hnil : Made i (w₁.alloc.emit (.built T (.obj w₁.fresh)))
      (leave i T .NEW_VALUE b (w₁.alloc.emit (.built T (.obj w₁.fresh)))) [] :=
    .nil i (leave_trace ..)
  exact hnil.floating (by simp) hfl'

theorem emplaceDefault_kept {b : Bool} {w₁ : World} (hw : Live ty i w) (hk : Kept ty i w w₁)
    (hnone : (w₁.inj i).typeMap_.lookup T = none) (hab : ty.is_abstract T = false) :
    wp (emplaceDefault ty i T) (fun r w₂ => match r with
      | .error _ => Ext i w w₂ → Kept ty i w w₂
      | .ok c => Ext i w w₂ → Ext i w (leave i T .REFERENCE b w₂) →
          Formed ty i .REFERENCE w c (leave i T .REFERENCE b w₂)) w₁ := by
  have hno : (w₁.inj i).typeMap_.has_key T = false := (TypeMap.not_has_key_iff _ T).mpr hnone
  have hno' : w₁.has_instance i T = false := hno
  refine wp_emplaceDefault ty (fun hhas => ?_) (fun _ n _ he => ?_) fun _ _ he hel => ⟨?_, by simp⟩
  · rw [hno'] at hhas
    cases hhas
  · have hm : Mute w₁ (w₁.onTypeMap i (·.emplace T none)) [] := by
      refine mute_onTypeMap w₁ ?_ ?_ (TypeMap.emplace_lookup _ T none) (by simp) (by simp)
      · simp [TypeMap.emplace_of_not_has hno]
      · intro U hU
        exact ((w₁.inj i).typeMap_.adds_emplace T none).1 U hU
    exact hk.then_mute hm he (.nil i (by simpa using hm.trace))
  · have hbuilt : Kept ty i w (w₁.alloc.emit (.built T (.obj w₁.fresh))) := by
      have hm : Mute w₁ (w₁.alloc.emit (.built T (.obj w₁.fresh))) [.built T (.obj w₁.fresh)] :=
        mute_of_inj (fun _ => ⟨rfl, rfl, rfl, rfl⟩) rfl (Nat.le_succ _) rfl (by simp) (by simp)
          (by simp)
      have hext : Ext i w (w₁.alloc.emit (.built T (.obj w₁.fresh))) :=
        (hk.ext.trans hw.lt (.alloc i w₁)).trans hw.lt (.emit i _ _)
      exact hk.then_mute hm hext ⟨rfl, by simp, by simp, by simp, by simp⟩
    have hfl := floating_alloc hk.inv hk.ext.fresh
    have hfl' : Floating (w₁.alloc.emit (.built T (.obj w₁.fresh))) w.fresh w₁.fresh :=
      ⟨hfl.since, hfl.lt, by simpa using hfl.left, fun j U => by
        simpa [Manages] using hfl.free j U⟩
    exact takes_kept hw hbuilt hfl' hnone hab (emplace_takes w₁ hnone) hel

theorem inject_kept (hext : Extends rec)
    (hrec : KeepsAll ty rec) {d : DepType_t} (hw : Live ty i w)
    (hT : (w.inj i).isInCycleCheck_ = true → T ∉ (w.inj i).typeHashStack_)
    (hd : d = .REFERENCE → (w.inj i).typeMap_.lookup T = none) :
    wp (inject_ ty rec i T d) (fun r w' => match r with
      | .error _ => Kept ty i w w'
      | .ok c => Formed ty i d w c (leave i T d (w.inj i).isInCycleCheck_ w')) (enter i T w) := by
  have hent : Kept ty i w (enter i T w) :=
    ⟨hw.inv.mute (mute_enter i T w), .enter i T w, [], .nil i (enter_trace i T w)⟩
  have hne : d = .REFERENCE → T ≠ injectorHash := by
    intro hr he
    have hs := hw.inv.self i hw.lt hw.live
    rw [← he, hd hr] at hs
    cases hs
  have core : wp (inject_ ty rec i T d) (fun r w' => match r with
      | .error _ => Ext i w w' → Kept ty i w w'
      | .ok c => Ext i w w' → Ext i w (leave i T d (w.inj i).isInCycleCheck_ w') →
          Formed ty i d w c (leave i T d (w.inj i).isInCycleCheck_ w')) (enter i T w) := by
    refine wp_inject ty rec (fun o recipe hfind => ?_) (fun e _ _ _ => hent) (fun _ _ _ hr => ?_)
      fun _ hab _ hr => ?_
    · obtain ⟨ha, hl, -⟩ := find_recipe_some hfind
      have hle : o ≤ i := ha.le hent.inv.wf (hent.live hw).lt
      refine wp_mono (recipeClosure_kept hrec recipe ((hent.live hw).anc ha) hl) ?_
      rintro r w₂ ⟨w₁, hs, hr⟩
      have hext₁ : Ext i (enter i T w) w₁ := hs.kept.ext.up hle
      have hext₂ : Ext i w w₂ := (hent.ext.trans hw.lt hext₁).placed hw.lt hle hT hs.placed
      have hk : Kept ty i w w₂ := by
        refine ⟨hs.inv, hext₂, ?_⟩
        obtain ⟨seg, hm⟩ := hs.made
        have hanc : Anc w o i := anc_of_upstream (fun j => ((mute_enter i T w).upstream j).symm) ha
        have hm' := hm.up (hanc.congr hw.inv.wf hw.lt hext₂.upstream)
        exact ⟨seg, hm'.trace, hm'.got, hm'.ends, hm'.destroyed, hm'.managed⟩
      cases r with
      | error e => exact fun _ => hk
      | ok c =>
        obtain ⟨p, rfl, hret⟩ := hr c rfl
        -- the injection under way has kept the place of the type free
        have hfree : d = .REFERENCE → (w₁.inj i).typeMap_.lookup T = none := by
          intro hr
          have hheld := hext₁.held i (hent.live hw).lt le_rfl (by simp [enter_inj_self]) T
            (by simp [enter_inj_self])
          rw [hheld, enter_inj_self]
          exact hd hr
        have hman : d = .REFERENCE → ∀ a, ¬ Manages w₂ i T a := by
          intro hr a ha₂
          obtain ⟨seg, hm⟩ := hs.kept.made
          have hlt : i < w₁.count := Nat.lt_of_lt_of_le (hent.live hw).lt hext₁.count
          have hlive : ¬ Dead w₁ i := fun hdead => (hent.live hw).live ((hm.dead_iff i).mp hdead)
          have hown := (hs.kept.inv.owned i T a hlt hlive).mp (hs.manages i T a ha₂)
          rw [hfree hr] at hown
          cases hown
        have hplace := place_kept (b := (w.inj i).isInCycleCheck_) hw hk rfl hret hman hfree hne
        refine wp_mono hplace ?_
        rintro r w₃ ⟨c, rfl, hform⟩
        exact hform
    · subst hr
      exact createInstance_kept hent
    · subst hr
      refine emplaceDefault_kept hw hent ?_ hab
      rw [enter_inj_self]
      exact hd rfl
  refine wp_mono (wp_and (inject_ext hext i T d w hw.inv.wf hw.lt hT) core) ?_
  rintro r w' ⟨he, hcore⟩
  cases r with
  | error e => exact hcore he
  | ok c => exact hcore he (he.leave hw.lt hT hd)

theorem makeDependency_kept (hext : Extends rec)
    (hrec : KeepsAll ty rec) {d : DepType_t} (hw : Live ty i w)
    (hd : d = .REFERENCE → (w.inj i).typeMap_.lookup T = none) :
    wp (makeDependency_ ty rec i T d) (fun r w' => Kept ty i w w' ∧
      ∀ c, r = .ok c → Formed ty i d w c w') w := by
  refine wp_makeDependency ty rec (fun _ _ => ⟨.refl hw, by simp⟩) fun hT => ?_
  refine wp_mono (inject_kept hext hrec hw hT hd) ?_
  intro r w' h
  cases r with
  | error e => exact ⟨h, by simp⟩
  | ok c =>
    refine ⟨h.1, fun c' hc => ?_⟩
    cases hc
    exact h

theorem refOf_kept (hw : Live ty i w) :
    wp (refOf i T) (fun r w' => Kept ty i w w' ∧ ∀ d, r = .ok (some d) → Home w' i d) w := by
  refine wp_refOf (fun _ => ⟨.refl hw, by simp⟩) fun c hl => ?_
  have hhome : ∀ d, c.ptr_ = some d → Home w i d := fun d =>
    hw.inv.home i T c d hw.lt hw.live hl
  have hk : Kept ty i w (w.emit (.got i T c.ptr_)) := by
    refine kept_emit hw (by simp) (by simp) (by simp) fun j U d he => ?_
    obtain ⟨-, -, hp⟩ := Event.got.inj he
    exact hhome d hp
  refine ⟨hk, fun d hd => ?_⟩
  have hp : c.ptr_ = some d := by simpa using hd
  exact home_ext hk.ext hw.inv.wf hw.lt (hhome d hp)

theorem callBody_kept (hext : Extends rec)
    (hrec : KeepsAll ty rec) : KeepsAll ty (callBody ty rec) := by
  rintro ⟨kind, i, T⟩ w hw
  have hasked : ∀ k, Kept ty i w (w.emit (.asked k i T)) := fun k =>
    kept_emit hw (by simp) (by simp) (by simp) (by simp)
  cases kind with
  | get =>
    have hl := (hasked .get).live hw
    change wp _ (fun r w' => Kept ty i w w' ∧ ∀ d, r = .ok (some d) → Home w' i d) w
    refine wp_get ty rec (fun c _ => ?_) (fun _ p hp _ => ?_) fun hnone _ => ?_
    · refine wp_mono (refOf_kept hl) ?_
      rintro r w₂ ⟨hk₂, hr⟩
      exact ⟨(hasked .get).trans hw hk₂, hr⟩
    · have hanc : Anc (w.emit (.asked .get i T)) p i := .up hp (.self p)
      refine wp_mono (hrec ⟨.get, p, T⟩ _ (hl.anc hanc)) ?_
      rintro r w₁ ⟨hk, hgain⟩
      have hk₁ := (hasked .get).trans hw (hk.up hl hanc)
      cases r with
      | error e => exact ⟨hk₁, by simp⟩
      | ok v =>
        have hhome : ∀ d, v = some d → Home w₁ i d := fun d hd =>
          (hgain d (by rw [hd])).up (hanc.congr hl.inv.wf hl.lt (hk.up hl hanc).ext.upstream)
        have hk₂ : Kept ty i w₁ (w₁.emit (.got i T v)) := by
          refine kept_emit (hk₁.live hw) (by simp) (by simp) (by simp) fun j U d he => ?_
          cases he
          exact hhome d rfl
        refine ⟨hk₁.trans hw hk₂, fun d hd => ?_⟩
        have hv : v = some d := by simpa using hd
        exact home_ext hk₂.ext hk₁.inv.wf (hk₁.live hw).lt (hhome d hv)
    · refine wp_mono (makeDependency_kept hext hrec hl fun _ => hnone) ?_
      rintro r w₁ ⟨hk, -⟩
      have hk₁ := (hasked .get).trans hw hk
      cases r with
      | error e => exact ⟨hk₁, by simp⟩
      | ok c =>
        refine wp_mono (refOf_kept (hk₁.live hw)) ?_
        rintro r w₂ ⟨hk₂, hr⟩
        exact ⟨hk₁.trans hw hk₂, hr⟩
  | creat =>
    change wp _ (fun r w' => Kept ty i w w' ∧
      ∀ n, r = .ok (some (Addr.obj n)) → Floating w' w.fresh n) w
    refine wp_creat ty rec (wp_mono
      (makeDependency_kept hext hrec ((hasked .creat).live hw) (by simp)) ?_)
    rintro r w₁ ⟨hk, hform⟩
    have hk₁ := (hasked .creat).trans hw hk
    cases r with
    | error e => exact ⟨hk₁, by simp⟩
    | ok c =>
      refine ⟨fun _ => ⟨hk₁, fun n hn => ?_⟩, fun _ => ⟨hk₁, by simp⟩⟩
      have hp : c.ptr_ = some (.obj n) := by simpa using hn
      exact (hform c rfl).2 rfl n hp

/-- Every call keeps the invariant, however it ends. -/
theorem exec_kept (fuel : ℕ) :
    KeepsAll ty (exec ty fuel) := by
  induction fuel with
  | zero => intro c w _ r w' h; cases h
  | succ fuel ih => exact callBody_kept (exec_ext fuel) ih

theorem call_kept {c : Call} (hw : Live ty c.inj w) : Kept ty c.inj w (w.call ty c).2 :=
  (call_of_wp (Q := fun r w' => Kept ty c.inj w w' ∧ Gained c w r w') hw.inv.wf hw.lt fun fuel =>
    exec_kept fuel c w hw).1

end
end Omulator.Di
