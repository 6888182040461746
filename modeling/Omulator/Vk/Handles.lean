import Omulator.Vk.Surface
import Mathlib.Data.Finset.Filter

/-!
# Handles in their lifetime (`src/vkmisc/Swapchain.cpp`)

In every run of the constructor, `reset` and the destructor, when any call may fail, no call is
made with a handle that is gone, but for the depth image when there is none since the last attempt
to allocate one.
-/

namespace Omulator.Surface
open Lib Routine
open Vk (Result Exn vk_fatal validate_vk_return)

/-- Only the destruction of a depth image goes wrong, and when it does. -/
def Exact (op : Op) (w : World) : Prop :=
  Fine op w ↔ ∀ n, op = .vmaDestroyImage n → w.made = true

theorem exact_of_fine {op : Op} {w : World} (h : Fine op w) (hop : ∀ n, op ≠ .vmaDestroyImage n) :
    Exact op w := ⟨fun _ n hn => absurd hn (hop n), fun _ => h⟩

abbrev Served {α : Type} (m : M α) (Q : Except Exn α → Storage → World → Prop) (s : Storage)
    (w : World) : Prop := wp World.service Exact Documented m Q s w

theorem stable (P : World → Prop) : World.service.Stable P := fun _ d => nomatch d

section
variable {α : Type} {s : Storage} {w : World} {op : Op}

theorem ask_served {Q : Except Exn op.Ans → Storage → World → Prop} (hg : Exact op w)
    (hk : ∀ x w', Documented op x → World.answer op x w = some w' → Q (.ok x) s w') :
    Served (ask op) Q s w := by
  refine wp_ask_of (stable (· = w)) rfl (fun w' hw => hw ▸ hg) ?_
  intro x w' w'' hw hx hans
  rw [hw] at hans
  exact hk x w'' hx hans

theorem ask_bind_served {f : op.Ans → M α} {Q : Except Exn α → Storage → World → Prop}
    (hg : Exact op w)
    (hk : ∀ x w', Documented op x → World.answer op x w = some w' → Served (f x) Q s w') :
    Served (ask op >>= f) Q s w := wp_bind.mpr (ask_served hg hk)

theorem raii_bind_served {n : ℕ} {f : ℕ → M α} {Q : Except Exn α → Storage → World → Prop} :
    Served (Swapchain.raii (.ok n) >>= f) Q s w ↔ Served (f n) Q s w := Iff.rfl

/-! ### What the members own -/

def World.without (w : World) (os : List Object) : World :=
  { w with live := w.live.filter (· ∉ os) }

@[simp] theorem World.without_nil (w : World) : w.without [] = w := by
  simp [World.without]

theorem destroyAll_served {os : List Object} (hnd : os.Nodup) (hos : ∀ o ∈ os, o ∈ w.live)
    {Q : Except Exn Unit → Storage → World → Prop} (hQ : Q (.ok ()) s (w.without os)) :
    Served (Swapchain.destroyAll os) Q s w := by
  induction os generalizing w with
  | nil =>
    rw [World.without_nil] at hQ
    exact hQ
  | cons o os ih =>
    obtain ⟨ho, hnd⟩ := List.nodup_cons.mp hnd
    obtain ⟨ho', hos⟩ := List.forall_mem_cons.mp hos
    refine ask_bind_served (exact_of_fine ho' (by simp)) ?_
    intro x w' _ hw
    cases hw
    refine ih hnd ?_ ?_
    · intro o' ho''
      exact Finset.mem_erase.mpr ⟨fun he => ho (he ▸ ho''), hos o' ho''⟩
    · have hsame : (World.without { w with live := w.live.erase o } os) = w.without (o :: os) := by
        have hlive : (w.live.erase o).filter (· ∉ os) = w.live.filter (· ∉ o :: os) := by
          ext o'
          simp only [Finset.mem_filter, Finset.mem_erase, List.mem_cons, not_or]
          tauto
        simp only [World.without, hlive]
      rw [hsame]
      exact hQ

theorem destroyAll_bind_served {os : List Object} {f : Unit → M α} (hnd : os.Nodup)
    (hos : ∀ o ∈ os, o ∈ w.live) {Q : Except Exn α → Storage → World → Prop}
    (hQ : Served (f ()) Q s (w.without os)) : Served (Swapchain.destroyAll os >>= f) Q s w :=
  wp_bind.mpr (destroyAll_served hnd hos hQ)

end

/-- The members own the object; `m`: the depth image they name is there. -/
def Swapchain.Owned (m : Bool) (s : Swapchain) : Object → Prop
  | .swapchain n => s.swapchain_ = some n
  | .renderPass n => s.renderPass_ = some n
  | .imageView n => n ∈ s.imageViews_ ∨ s.depthImageView_ = some n
  | .framebuffer n => n ∈ s.framebuffers_
  | .depthImage n => m = true ∧ s.depthImage_ = some n

/-- There is what the members own, once each. -/
structure Owns (m : Bool) (s : Swapchain) (w : World) : Prop where
  live : ∀ o, o ∈ w.live ↔ s.Owned m o
  image : m = true → ∃ n, s.depthImage_ = some n
  views : s.imageViews_.Nodup
  depthView : ∀ n, s.depthImageView_ = some n → n ∉ s.imageViews_
  framebuffers : s.framebuffers_.Nodup
  fresh : ∀ o ∈ w.live, o.num < w.next

section
variable {m : Bool} {s : Swapchain} {st : Storage} {w : World} {n : ℕ} {o : Object}

theorem mem_without {os : List Object} : o ∈ (w.without os).live ↔ o ∈ w.live ∧ o ∉ os := by
  simp [World.without]

theorem Owns.drop {s' : Swapchain} {os : List Object} (h : Owns m s w)
    (hs' : ∀ o, s'.Owned m o ↔ s.Owned m o ∧ o ∉ os) (hi : s'.depthImage_ = s.depthImage_)
    (hv : s'.imageViews_.Sublist s.imageViews_) (hd : s'.depthImageView_ = s.depthImageView_)
    (hf : s'.framebuffers_.Sublist s.framebuffers_) : Owns m s' (w.without os) where
  live o := by rw [mem_without, h.live, hs']
  image hm := hi ▸ h.image hm
  views := h.views.sublist hv
  depthView n hn hm := h.depthView n (hd ▸ hn) (hv.subset hm)
  framebuffers := h.framebuffers.sublist hf
  fresh o ho := h.fresh o (mem_without.mp ho).1

theorem nodup_framebuffers (h : Owns m s w) : (s.framebuffers_.map Object.framebuffer).Nodup :=
  h.framebuffers.map fun _ _ he => Object.framebuffer.inj he

theorem nodup_views (h : Owns m s w) : (s.imageViews_.map Object.imageView).Nodup :=
  h.views.map fun _ _ he => Object.imageView.inj he

theorem nodup_toList (x : Option ℕ) (f : ℕ → Object) : (x.toList.map f).Nodup := by
  cases x with
  | none => exact List.nodup_nil
  | some n => exact List.nodup_singleton _

theorem clear_served (h : Owns m st.this w) : Served Swapchain.clear_ (fun r st' w' =>
    r = .ok () ∧ st' = { st with this :=
      { st.this with framebuffers_ := [], imageViews_ := [], swapchain_ := none } } ∧
    Owns m st'.this w' ∧ w'.made = w.made) st w := by
  refine wp_get_bind.mpr (destroyAll_bind_served (nodup_framebuffers h) ?_ ?_)
  · intro o ho
    obtain ⟨n, hn, rfl⟩ := List.mem_map.mp ho
    exact (h.live _).mpr hn
  have h₁ : Owns m { st.this with framebuffers_ := [] }
      (w.without (st.this.framebuffers_.map .framebuffer)) := by
    refine h.drop ?_ rfl (List.Sublist.refl _) rfl (List.nil_sublist _)
    intro o
    cases o <;> simp [Swapchain.Owned]
  refine wp_modify_bind.mpr (wp_get_bind.mpr (destroyAll_bind_served (nodup_views h₁) ?_ ?_))
  · intro o ho
    obtain ⟨n, hn, rfl⟩ := List.mem_map.mp ho
    exact (h₁.live _).mpr (.inl hn)
  set w₁ := w.without (st.this.framebuffers_.map .framebuffer)
  have h₂ : Owns m { st.this with framebuffers_ := [], imageViews_ := [] }
      (w₁.without (st.this.imageViews_.map .imageView)) := by
    refine h₁.drop ?_ rfl (List.nil_sublist _) rfl (List.Sublist.refl _)
    intro o
    cases o with
    | imageView n =>
      have hd := h.depthView n
      simp only [Swapchain.Owned, List.not_mem_nil, false_or, List.mem_map, Object.imageView.injEq,
        exists_eq_right]
      tauto
    | _ => simp [Swapchain.Owned]
  refine wp_modify_bind.mpr (wp_get_bind.mpr (destroyAll_bind_served (nodup_toList _ _) ?_ ?_))
  · intro o ho
    obtain ⟨n, hn, rfl⟩ := List.mem_map.mp ho
    exact (h₂.live _).mpr (Option.mem_toList.mp hn)
  refine ⟨rfl, rfl, ?_, rfl⟩
  refine h₂.drop ?_ rfl (List.Sublist.refl _) rfl (List.Sublist.refl _)
  intro o
  cases o <;> simp [Swapchain.Owned]

theorem Owns.add {m' : Bool} {s' : Swapchain} {w' : World} (h : Owns m s w)
    (hlive : w'.live = insert o w.live) (hnext : w'.next = w.next + 1) (ho : o.num = w.next)
    (hs' : ∀ o', s'.Owned m' o' ↔ o' = o ∨ s.Owned m o')
    (hi : m' = true → ∃ n, s'.depthImage_ = some n) (hv : s'.imageViews_.Nodup)
    (hd : ∀ n, s'.depthImageView_ = some n → n ∉ s'.imageViews_) (hf : s'.framebuffers_.Nodup) :
    Owns m' s' w' where
  live o' := by rw [hlive, Finset.mem_insert, h.live, hs']
  image := hi
  views := hv
  depthView := hd
  framebuffers := hf
  fresh o' ho' := by
    rw [hlive, Finset.mem_insert] at ho'
    rw [hnext]
    rcases ho' with rfl | ho'
    · omega
    · exact Nat.lt_succ_of_lt (h.fresh o' ho')

theorem Owns.lt_of_owned (h : Owns m s w) (ho : s.Owned m o) : o.num < w.next :=
  h.fresh o ((h.live o).mpr ho)

theorem Owns.resize (h : Owns m s w) (width height : UInt32) :
    Owns m { s with surfaceWidth := width, surfaceHeight := height } w :=
  ⟨fun o => (h.live o).trans (by cases o <;> rfl), h.image, h.views, h.depthView, h.framebuffers,
    h.fresh⟩

variable {swapchainReturn : String}

theorem build_swapchain_served (h : Owns m st.this w) (hnone : st.this.swapchain_ = none) :
    Served (Swapchain.build_swapchain_ swapchainReturn) (fun r st' w' => st'.stage = st.stage ∧
      Owns m st'.this w' ∧ w'.made = w.made ∧ ∃ dims : UInt32 × UInt32, ∃ sw,
        st'.this = { st.this with
          surfaceWidth := dims.1, surfaceHeight := dims.2, swapchain_ := sw } ∧
        (r = .ok () → ∃ n, sw = some n)) st w := by
  refine ask_bind_served (exact_of_fine trivial (by simp)) ?_
  intro dims w₁ _ hw
  cases hw
  refine wp_modify_bind.mpr (ask_bind_served (exact_of_fine trivial (by simp)) ?_)
  intro x w₁ _ hw
  cases x with
  | error reason =>
    cases hw
    exact ⟨rfl, h.resize _ _, rfl, dims, none, by simp [hnone], by simp⟩
  | ok n =>
    simp only [World.answer, World.made?] at hw
    split at hw
    · rename_i hn
      cases hw
      refine wp_get_bind.mpr (wp_modify_bind.mpr ?_)
      rw [show st.this.swapchain_ = none from hnone]
      refine ⟨rfl, ?_, rfl, dims, some n, rfl, fun _ => ⟨n, rfl⟩⟩
      refine (h.resize dims.1 dims.2).add rfl rfl hn ?_ h.image h.views h.depthView h.framebuffers
      intro o
      cases o with
      | swapchain n' => simp [Swapchain.Owned, hnone, eq_comm]
      | _ => simp [Swapchain.Owned]
    · cases hw

theorem create_renderpass_served (h : Owns m st.this w) (hnone : st.this.renderPass_ = none) :
    Served Swapchain.create_renderpass_ (fun r st' w' => st'.stage = st.stage ∧
      Owns m st'.this w' ∧ w'.made = w.made ∧ ∃ rp, st'.this = { st.this with renderPass_ := rp } ∧
        (r = .ok () → ∃ n, rp = some n)) st w := by
  refine ask_bind_served (exact_of_fine trivial (by simp)) ?_
  intro x w₁ _ hw
  cases x with
  | error reason =>
    cases hw
    exact ⟨rfl, h, rfl, none, by simp [← hnone], by simp⟩
  | ok n =>
    simp only [World.answer, World.made?] at hw
    split at hw
    · rename_i hn
      cases hw
      refine raii_bind_served.mpr (wp_get_bind.mpr (wp_modify_bind.mpr ?_))
      rw [hnone]
      refine ⟨rfl, ?_, rfl, some n, rfl, fun _ => ⟨n, rfl⟩⟩
      refine h.add rfl rfl hn ?_ h.image h.views h.depthView h.framebuffers
      intro o
      cases o with
      | renderPass n' => simp [Swapchain.Owned, hnone, eq_comm]
      | _ => simp [Swapchain.Owned]
    · cases hw

def World.Shows (w : World) (sw : ℕ) (views : List ℕ) : Prop :=
  ∀ v ∈ views, ∃ i, w.imageOf v = .presentable sw i

theorem build_image_view_served {sw i : ℕ} {vs : List ℕ} {this : Swapchain}
    (h : Owns m { this with imageViews_ := vs } w) (hsw : this.swapchain_ = some sw)
    (hshows : w.Shows sw vs) :
    Served (Swapchain.build_image_view (some sw) i) (fun _ st' w' => ∃ vs',
      st' = { st with this := { this with imageViews_ := vs' } } ∧
      Owns m st'.this w' ∧ w'.made = w.made ∧ w'.Shows sw vs')
      { st with this := { this with imageViews_ := vs } } w := by
  refine ask_bind_served (exact_of_fine ?_ (by simp)) ?_
  · exact (h.live (.swapchain sw)).mpr hsw
  intro x w₁ _ hw
  cases x with
  | error reason =>
    cases hw
    exact ⟨vs, rfl, h, rfl, hshows⟩
  | ok n =>
    simp only [World.answer, World.made?] at hw
    split at hw
    · rename_i hn
      cases hw
      have hlt : ∀ v, ({ this with imageViews_ := vs } : Swapchain).Owned m (.imageView v) →
          v < n := fun v hv => hn ▸ h.lt_of_owned hv
      refine raii_bind_served.mpr ?_
      refine ⟨vs ++ [n], rfl, ?_, rfl, ?_⟩
      · refine h.add (o := .imageView n) rfl rfl hn ?_ h.image ?_ ?_ h.framebuffers
        · intro o
          cases o with
          | imageView n' =>
            simp only [Swapchain.Owned, List.mem_append, List.mem_singleton, Object.imageView.injEq]
            tauto
          | _ => simp [Swapchain.Owned]
        · refine List.nodup_append.mpr ⟨h.views, List.nodup_singleton n, ?_⟩
          intro a ha b hb
          rw [List.mem_singleton.mp hb]
          exact Nat.ne_of_lt (hlt a (.inl ha))
        · intro d hd hmem
          rcases List.mem_append.mp hmem with hmem | hmem
          · exact h.depthView d hd hmem
          · exact absurd (List.mem_singleton.mp hmem) (Nat.ne_of_lt (hlt d (.inr hd)))
      · intro v hv
        rcases List.mem_append.mp hv with hv | hv
        · obtain ⟨j, hj⟩ := hshows v hv
          refine ⟨j, ?_⟩
          rw [← hj]
          exact Function.update_of_ne (hn ▸ Nat.ne_of_lt (hlt v (.inl hv))) _ _
        · refine ⟨i, ?_⟩
          rw [List.mem_singleton.mp hv, hn]
          exact Function.update_self _ _ _
    · cases hw

theorem build_image_views_served {sw : ℕ} (h : Owns m st.this w)
    (hsw : st.this.swapchain_ = some sw) (hnone : st.this.imageViews_ = []) :
    Served Swapchain.build_image_views_ (fun _ st' w' => ∃ vs,
      st' = { st with this := { st.this with imageViews_ := vs } } ∧
      Owns m st'.this w' ∧ w'.made = w.made ∧ w'.Shows sw vs) st w := by
  have hvs : st = { st with this := { st.this with imageViews_ := [] } } := by rw [← hnone]
  refine wp_get_bind.mpr (ask_bind_served (exact_of_fine ?_ (by simp)) ?_)
  · exact ⟨sw, hsw, (h.live (.swapchain sw)).mpr hsw⟩
  intro x w₁ _ hw
  cases hw
  cases x with
  | error reason => exact ⟨[], hvs, h, rfl, by simp [World.Shows]⟩
  | ok count =>
    refine raii_bind_served.mpr ?_
    refine wp_mono (wp_forM (fun _ st' w' => ∃ vs,
        st' = { st with this := { st.this with imageViews_ := vs } } ∧
        Owns m st'.this w' ∧ w'.made = w.made ∧ w'.Shows sw vs)
      (fun _ st' w' => ∃ vs, st' = { st with this := { st.this with imageViews_ := vs } } ∧
        Owns m st'.this w' ∧ w'.made = w.made ∧ w'.Shows sw vs) ?_
      ⟨[], hvs, h, rfl, by simp [World.Shows]⟩) ?_
    · rintro i is st' w' ⟨vs, rfl, h', hmade, hshows⟩
      rw [hsw]
      refine wp_mono (build_image_view_served h' hsw hshows) ?_
      rintro r st'' w'' ⟨vs', rfl, h'', hmade', hshows'⟩
      cases r with
      | ok u => exact ⟨vs', rfl, h'', hmade'.trans hmade, hshows'⟩
      | error e => exact ⟨vs', rfl, h'', hmade'.trans hmade, hshows'⟩
    · intro r st' w' hr
      cases r with
      | ok u => exact hr
      | error e => exact hr

structure Deep (s : Swapchain) (w : World) : Prop where
  made : w.made = true
  shown : ∃ n d, s.depthImage_ = some n ∧ s.depthImageView_ = some d ∧ w.imageOf d = .depth n ∧
    w.extentOf n = (s.surfaceWidth, s.surfaceHeight)

theorem free_served {α : Type} {f : Unit → M α} {Q : Except Exn α → Storage → World → Prop}
    (h : Owns w.made st.this w)
    (hk : ∀ w', Owns false st.this w' → w'.imageOf = w.imageOf →
      Served (f ()) Q st w') :
    Served (Swapchain.free >>= f) Q st w := by
  refine wp_bind.mpr (wp_get_bind.mpr ?_)
  cases hd : st.this.depthImage_ with
  | none =>
    refine hk w ⟨fun o => ?_, nofun, h.views, h.depthView, h.framebuffers, h.fresh⟩ rfl
    rw [h.live]
    cases o <;> simp [Swapchain.Owned, hd]
  | some n =>
    refine ask_served ?_ ?_
    · refine (h.live (.depthImage n)).trans ⟨fun hn n' _ => hn.1, fun hn => ⟨hn n rfl, hd⟩⟩
    intro x w' _ hw
    cases hw
    refine hk _ ⟨fun o => ?_, nofun, h.views, h.depthView, h.framebuffers, ?_⟩ rfl
    · rw [Finset.mem_erase, h.live]
      cases o with
      | depthImage n' =>
        simp only [Swapchain.Owned, hd, Option.some.injEq, Object.depthImage.injEq, ne_eq,
          Bool.false_eq_true, false_and, iff_false, not_and]
        exact fun hne _ he => hne he.symm
      | _ => simp [Swapchain.Owned]
    · intro o ho
      exact h.fresh o (Finset.mem_of_mem_erase ho)

/-- A failure leaves the handle of the image that has been destroyed. -/
theorem alloc_served {α : Type} {width height : UInt32} {f : Option ℕ → M α}
    {Q : Except Exn α → Storage → World → Prop} (h : Owns false st.this w)
    (hfail : ∀ e, Q (.error e) st { w with made := false })
    (hk : ∀ w', w'.made = true → Owns true { st.this with depthImage_ := some w.next } w' →
      w'.imageOf = w.imageOf → w'.extentOf w.next = (width, height) →
      Served (f (some w.next)) Q st w') : Served (Swapchain.alloc width height >>= f) Q st w := by
  refine wp_bind.mpr (ask_bind_served (exact_of_fine trivial (by simp)) ?_)
  intro x w' hx hw
  cases x with
  | error r =>
    cases hw
    obtain ⟨e, he⟩ := hx
    simp only [he]
    exact hfail e
  | ok n =>
    simp only [World.answer, World.made?] at hw
    split at hw
    · rename_i hn
      cases hw
      rw [hn]
      refine hk _ rfl ?_ rfl (Function.update_self _ _ _)
      refine h.add (o := .depthImage w.next) rfl rfl rfl ?_ (fun _ => ⟨_, rfl⟩) h.views h.depthView
        h.framebuffers
      intro o
      cases o with
      | depthImage n' => simp [Swapchain.Owned, eq_comm]
      | _ => simp [Swapchain.Owned]
    · cases hw

theorem Owns.review {w' : World} {d : ℕ} (h : Owns m s w)
    (hlive : w'.live = insert (.imageView d) w.live) (hnext : w'.next = w.next + 1)
    (hd : d = w.next) : Owns m { s with depthImageView_ := some d }
      (w'.without (s.depthImageView_.toList.map .imageView)) := by
  have hlt : ∀ v, s.Owned m (.imageView v) → v ≠ d := fun v hv =>
    hd ▸ Nat.ne_of_lt (h.lt_of_owned hv)
  refine ⟨fun o => ?_, h.image, h.views, ?_, h.framebuffers, ?_⟩
  · rw [mem_without, hlive, Finset.mem_insert, h.live]
    cases o with
    | imageView v =>
      have hv := hlt v
      have hold := h.depthView v
      simp only [Swapchain.Owned, List.mem_map, Option.mem_toList, Object.imageView.injEq,
        exists_eq_right, Option.some.injEq] at hv hold ⊢
      grind
    | _ => simp [Swapchain.Owned]
  · intro v hv hmem
    exact hlt v (.inl hmem) (Option.some.inj hv).symm
  · intro o ho
    rw [show (World.without w' _).next = w'.next from rfl, hnext]
    have ho' := (mem_without.mp ho).1
    rw [hlive, Finset.mem_insert] at ho'
    rcases ho' with rfl | ho'
    · exact hd ▸ Nat.lt_succ_self _
    · exact Nat.lt_succ_of_lt (h.fresh o ho')

theorem build_depth_image_views_served {sw : ℕ} (h : Owns w.made st.this w)
    (hshows : w.Shows sw st.this.imageViews_) :
    Served Swapchain.build_depth_image_views_ (fun r st' w' => st'.stage = st.stage ∧
      Owns w'.made st'.this w' ∧ (∃ image view, st'.this = { st.this with
        depthImage_ := image, depthImageView_ := view }) ∧
      (r = .ok () → Deep st'.this w' ∧ w'.Shows sw st'.this.imageViews_)) st w := by
  refine free_served h ?_
  intro w₁ h₁ himages
  refine wp_get_bind.mpr (alloc_served h₁ ?_ ?_)
  · exact fun e => ⟨rfl, ⟨h₁.live, h₁.image, h₁.views, h₁.depthView, h₁.framebuffers, h₁.fresh⟩,
      ⟨_, _, rfl⟩, by simp⟩
  intro w₂ hmade h₂ himages₂ hextent
  refine wp_modify_bind.mpr (ask_bind_served (exact_of_fine ?_ (by simp)) ?_)
  · exact (h₂.live (.depthImage w₁.next)).mpr ⟨rfl, rfl⟩
  intro x w₃ _ hw
  cases x with
  | error r =>
    cases hw
    exact ⟨rfl, hmade ▸ h₂, ⟨_, _, rfl⟩, by simp⟩
  | ok d =>
    simp only [World.answer, World.made?] at hw
    split at hw
    · rename_i hd
      cases hw
      refine raii_bind_served.mpr (wp_get_bind.mpr (wp_modify_bind.mpr ?_))
      have hlt : ∀ v, Swapchain.Owned true { st.this with depthImage_ := some w₁.next }
          (.imageView v) → v ≠ d := fun v hv => hd ▸ Nat.ne_of_lt (h₂.lt_of_owned hv)
      refine destroyAll_served (nodup_toList _ _) ?_ ?_
      · intro o ho
        obtain ⟨v, hv, rfl⟩ := List.mem_map.mp ho
        exact Finset.mem_insert_of_mem ((h₂.live (.imageView v)).mpr
          (.inr (Option.mem_toList.mp hv)))
      refine ⟨rfl, ?_, ⟨_, _, rfl⟩, fun _ => ⟨⟨hmade, _, _, rfl, rfl, ?_, ?_⟩, ?_⟩⟩
      · have h₂' : Owns w₂.made { st.this with depthImage_ := some w₁.next } w₂ := by
          rw [hmade]
          exact h₂
        exact h₂'.review rfl rfl hd
      · exact hd ▸ Function.update_self _ _ _
      · exact hextent
      · intro v hv
        obtain ⟨i, hi⟩ := hshows v hv
        refine ⟨i, ?_⟩
        rw [← hi, ← himages, ← himages₂]
        exact Function.update_of_ne (hd ▸ hlt v (.inl hv)) _ _
    · cases hw

structure Ready (s : Swapchain) (w : World) : Prop where
  deep : Deep s w
  pass : ∃ r, s.renderPass_ = some r
  shows : ∃ sw, s.swapchain_ = some sw ∧ w.Shows sw s.imageViews_

theorem build_framebuffer_served {v : ℕ} (h : Owns true st.this w) (hr : Ready st.this w)
    (hv : v ∈ st.this.imageViews_) :
    Served (Swapchain.build_framebuffer v) (fun _ st' w' => ∃ fs,
      st' = { st with this := { st.this with framebuffers_ := fs } } ∧
      Owns true st'.this w' ∧ Ready st'.this w' ∧ w'.made = w.made) st w := by
  obtain ⟨hmade, n, d, hn, hd, himage, hextent⟩ := hr.deep
  obtain ⟨r, hpass⟩ := hr.pass
  obtain ⟨sw, hsw, hshows⟩ := hr.shows
  refine wp_get_bind.mpr (ask_bind_served (exact_of_fine ?_ (by simp)) ?_)
  · obtain ⟨i, hi⟩ := hshows v hv
    refine ⟨r, d, n, hpass, hd, (h.live (.renderPass r)).mpr hpass,
      (h.live (.imageView v)).mpr (.inl hv), (h.live (.imageView d)).mpr (.inr hd), ?_, himage,
      (h.live (.depthImage n)).mpr ⟨rfl, hn⟩, hextent⟩
    rw [hi]
    exact (h.live (.swapchain sw)).mpr hsw
  intro x w₁ _ hw
  cases x with
  | error reason =>
    cases hw
    exact ⟨_, rfl, h, hr, rfl⟩
  | ok f =>
    simp only [World.answer, World.made?] at hw
    split at hw
    · rename_i hf
      cases hw
      refine ⟨st.this.framebuffers_ ++ [f], rfl, ?_, ?_, rfl⟩
      · refine h.add (o := .framebuffer f) rfl rfl hf ?_ h.image h.views h.depthView ?_
        · intro o
          cases o with
          | framebuffer f' =>
            simp only [Swapchain.Owned, List.mem_append, List.mem_singleton,
              Object.framebuffer.injEq]
            tauto
          | _ => simp [Swapchain.Owned]
        · refine List.nodup_append.mpr ⟨h.framebuffers, List.nodup_singleton f, ?_⟩
          intro a ha b hb
          rw [List.mem_singleton.mp hb, hf]
          exact Nat.ne_of_lt (h.lt_of_owned (o := .framebuffer a) ha)
      · exact ⟨⟨hmade, n, d, hn, hd, himage, hextent⟩, ⟨r, hpass⟩, sw, hsw, hshows⟩
    · cases hw

theorem build_framebuffers_served (h : Owns true st.this w) (hr : Ready st.this w) :
    Served Swapchain.build_framebuffers_ (fun _ st' w' => ∃ fs,
      st' = { st with this := { st.this with framebuffers_ := fs } } ∧
      Owns true st'.this w' ∧ w'.made = true) st w := by
  have hI : ∀ st' w', (∃ fs, st' = { st with this := { st.this with framebuffers_ := fs } } ∧
      Owns true st'.this w' ∧ Ready st'.this w' ∧ w'.made = true) →
      ∃ fs, st' = { st with this := { st.this with framebuffers_ := fs } } ∧
        Owns true st'.this w' ∧ w'.made = true := by
    rintro st' w' ⟨fs, hst, h', -, hmade⟩
    exact ⟨fs, hst, h', hmade⟩
  refine wp_get_bind.mpr (wp_mono (wp_forM (fun vs st' w' => (∀ v ∈ vs, v ∈ st.this.imageViews_) ∧
      ∃ fs, st' = { st with this := { st.this with framebuffers_ := fs } } ∧
        Owns true st'.this w' ∧ Ready st'.this w' ∧ w'.made = true)
    (fun _ st' w' => ∃ fs, st' = { st with this := { st.this with framebuffers_ := fs } } ∧
        Owns true st'.this w' ∧ w'.made = true) ?_
    ⟨fun v hv => hv, _, rfl, h, hr, hr.deep.made⟩) ?_)
  · rintro v vs st' w' ⟨hvs, fs, rfl, h', hr', hmade⟩
    refine wp_mono (build_framebuffer_served h' hr' (hvs v List.mem_cons_self)) ?_
    rintro r st'' w'' ⟨fs', rfl, h'', hr'', hmade'⟩
    cases r with
    | ok u =>
      exact ⟨fun v' hv' => hvs v' (List.mem_cons_of_mem _ hv'), fs', rfl, h'', hr'',
        hmade'.trans hmade⟩
    | error e => exact ⟨fs', rfl, h'', hmade'.trans hmade⟩
  · intro r st' w' hr'
    cases r with
    | ok u => exact hI st' w' hr'.2
    | error e => exact hr'

theorem build_views_served {sw r : ℕ} (h : Owns w.made st.this w)
    (hsw : st.this.swapchain_ = some sw) (hnone : st.this.imageViews_ = [])
    (hpass : st.this.renderPass_ = some r) :
    Served (do
      Swapchain.build_image_views_
      Swapchain.build_depth_image_views_
      Swapchain.build_framebuffers_) (fun _ st' w' => st'.stage = st.stage ∧
        Owns w'.made st'.this w' ∧ st'.this.renderPass_ = some r) st w := by
  refine wp_bind.mpr (wp_mono (build_image_views_served h hsw hnone) ?_)
  rintro r₁ st₁ w₁ ⟨vs, rfl, h₁, hmade₁, hshows₁⟩
  rw [← hmade₁] at h₁
  cases r₁ with
  | error e => exact ⟨rfl, h₁, hpass⟩
  | ok u =>
    refine wp_bind.mpr (wp_mono (build_depth_image_views_served h₁ hshows₁) ?_)
    rintro r₂ st₂ w₂ ⟨hstage₂, h₂, ⟨image, view, hthis₂⟩, hdeep⟩
    cases r₂ with
    | error e => exact ⟨hstage₂, h₂, by rw [hthis₂]; exact hpass⟩
    | ok u =>
      obtain ⟨hdeep, hshows₂⟩ := hdeep rfl
      rw [hdeep.made] at h₂
      have hready : Ready st₂.this w₂ :=
        ⟨hdeep, ⟨r, by rw [hthis₂]; exact hpass⟩, sw, by rw [hthis₂]; exact hsw, hshows₂⟩
      refine wp_mono (build_framebuffers_served h₂ hready) ?_
      rintro r₃ st₃ w₃ ⟨fs, rfl, h₃, hmade₃⟩
      exact ⟨hstage₂, hmade₃ ▸ h₃, by simp only [hthis₂]; exact hpass⟩

theorem reset_served {rp : ℕ} (h : Owns w.made st.this w) (hpass : st.this.renderPass_ = some rp) :
    Served (Swapchain.reset swapchainReturn) (fun _ st' w' => st'.stage = st.stage ∧
      Owns w'.made st'.this w' ∧ st'.this.renderPass_ = some rp) st w := by
  refine wp_bind.mpr (wp_mono (clear_served h) ?_)
  rintro r₁ st₁ w₁ ⟨rfl, rfl, h₁, hmade₁⟩
  refine wp_bind.mpr (wp_mono (build_swapchain_served h₁ rfl) ?_)
  rintro r₂ st₂ w₂ ⟨hstage₂, h₂, hmade₂, dims, sw, hthis₂, hsw⟩
  rw [← hmade₁, ← hmade₂] at h₂
  cases r₂ with
  | error e => exact ⟨hstage₂, h₂, by rw [hthis₂]; exact hpass⟩
  | ok u =>
    obtain ⟨n, rfl⟩ := hsw rfl
    refine wp_mono (build_views_served h₂ (by rw [hthis₂]) (by rw [hthis₂]) (r := rp)
      (by rw [hthis₂]; exact hpass)) ?_
    rintro r₃ st₃ w₃ ⟨hstage₃, h₃, hpass₃⟩
    exact ⟨hstage₃.trans hstage₂, h₃, hpass₃⟩

theorem destroyMembers_served (h : Owns m st.this w) :
    Served Swapchain.destroyMembers (fun r st' w' => r = .ok () ∧ st' = st ∧ w'.made = w.made ∧
      ∀ o, o ∈ w'.live ↔ st.this.Owned m o ∧ ∃ n, o = .depthImage n) st w := by
  have hmem : ∀ {o}, st.this.Owned m o → o ∈ w.live := fun ho => (h.live _).mpr ho
  refine wp_get_bind.mpr (destroyAll_bind_served (nodup_toList _ _) ?_ ?_)
  · intro o ho
    obtain ⟨n, hn, rfl⟩ := List.mem_map.mp ho
    exact hmem (Option.mem_toList.mp hn)
  refine destroyAll_bind_served (nodup_toList _ _) ?_ ?_
  · intro o ho
    obtain ⟨n, hn, rfl⟩ := List.mem_map.mp ho
    exact mem_without.mpr ⟨hmem (Option.mem_toList.mp hn), by simp⟩
  refine destroyAll_bind_served (nodup_views h) ?_ ?_
  · intro o ho
    obtain ⟨n, hn, rfl⟩ := List.mem_map.mp ho
    simp only [mem_without]
    exact ⟨⟨hmem (.inl hn), by simp⟩, by simp⟩
  refine destroyAll_bind_served (nodup_framebuffers h) ?_ ?_
  · intro o ho
    obtain ⟨n, hn, rfl⟩ := List.mem_map.mp ho
    simp only [mem_without]
    exact ⟨⟨⟨hmem hn, by simp⟩, by simp⟩, by simp⟩
  refine destroyAll_served (nodup_toList _ _) ?_ ?_
  · intro o ho
    obtain ⟨n, hn, rfl⟩ := List.mem_map.mp ho
    have hn := Option.mem_toList.mp hn
    have hv := h.depthView n hn
    simp only [mem_without]
    exact ⟨⟨⟨⟨hmem (.inr hn), by simp⟩, by simp⟩, by simpa using hv⟩, by simp⟩
  refine ⟨rfl, rfl, rfl, ?_⟩
  intro o
  simp only [mem_without, h.live]
  cases o with
  | imageView n =>
    simp only [Swapchain.Owned, List.mem_map, Option.mem_toList, Object.imageView.injEq,
      exists_eq_right]
    grind
  | _ => simp [Swapchain.Owned]

theorem destruct_served (h : Owns w.made st.this w) :
    Served Swapchain.destruct (fun _ st' w' => st'.stage = .destroyed ∧ w'.live = ∅) st w := by
  refine free_served h ?_
  intro w₁ h₁ _
  refine wp_bind.mpr (wp_mono (destroyMembers_served h₁) ?_)
  rintro r st₁ w₂ ⟨rfl, rfl, -, hlive⟩
  refine ⟨rfl, Finset.eq_empty_of_forall_notMem fun o ho => ?_⟩
  obtain ⟨hown, n, rfl⟩ := (hlive o).mp ho
  exact Bool.false_ne_true hown.1

/-! ### Runs -/

def Kept (st : Storage) (w : World) : Prop :=
  match st.stage with
  | .unborn => st.this = {} ∧ w.live = ∅ ∧ w.made = false
  | .alive => Owns w.made st.this w ∧ ∃ r, st.this.renderPass_ = some r
  | .stillborn => w.live = ∅ ∧ w.made = false ∨
    w.made = true ∧ ∃ n, st.this.depthImage_ = some n ∧ w.live = {.depthImage n}
  | .destroyed => w.live = ∅

theorem Kept.stillborn {st' : Storage} (h : Owns m st.this w) (hm : st'.this = st.this)
    (hs : st'.stage = .stillborn) {w' : World} (hmade : w'.made = m)
    (hlive : ∀ o, o ∈ w'.live ↔ st.this.Owned m o ∧ ∃ n, o = .depthImage n) : Kept st' w' := by
  rw [Kept, hs, hm, hmade]
  cases m with
  | false =>
    refine .inl ⟨Finset.eq_empty_of_forall_notMem fun o ho => ?_, rfl⟩
    obtain ⟨hown, n, rfl⟩ := (hlive o).mp ho
    exact Bool.false_ne_true hown.1
  | true =>
    obtain ⟨n, hn⟩ := h.image rfl
    refine .inr ⟨rfl, n, hn, ?_⟩
    ext o
    rw [hlive, Finset.mem_singleton]
    constructor
    · rintro ⟨hown, n', rfl⟩
      rw [Option.some.inj (hn.symm.trans hown.2)]
    · rintro rfl
      exact ⟨⟨rfl, hn⟩, n, rfl⟩

theorem owns_start {st : Storage} (hthis : st.this = {}) (hlive : w.live = ∅)
    (hmade : w.made = false) : Owns w.made st.this w where
  live o := by
    rw [hlive, hthis, hmade]
    cases o <;> simp [Swapchain.Owned]
  image hm := absurd (hmade.symm.trans hm) Bool.false_ne_true
  views := by simp [hthis]
  depthView n hn := by simp [hthis] at hn
  framebuffers := by simp [hthis]
  fresh o ho := by simp [hlive] at ho

theorem build_served (h : Owns w.made st.this w) (hthis : st.this = {}) :
    Served (do
      Swapchain.build_swapchain_ swapchainReturn
      Swapchain.create_renderpass_
      Swapchain.build_image_views_
      Swapchain.build_depth_image_views_
      Swapchain.build_framebuffers_) (fun r st' w' => Owns w'.made st'.this w' ∧
        (r = .ok () → ∃ p, st'.this.renderPass_ = some p)) st w := by
  refine wp_bind.mpr (wp_mono (build_swapchain_served h (by rw [hthis])) ?_)
  rintro r₁ st₁ w₁ ⟨-, h₁, hmade₁, dims, sw, hthis₁, hsw⟩
  rw [← hmade₁] at h₁
  cases r₁ with
  | error e => exact ⟨h₁, by simp⟩
  | ok u =>
    obtain ⟨n, rfl⟩ := hsw rfl
    refine wp_bind.mpr (wp_mono (create_renderpass_served h₁ (by rw [hthis₁, hthis])) ?_)
    rintro r₂ st₂ w₂ ⟨-, h₂, hmade₂, rp, hthis₂, hrp⟩
    rw [← hmade₂] at h₂
    cases r₂ with
    | error e => exact ⟨h₂, by simp⟩
    | ok u =>
      obtain ⟨p, rfl⟩ := hrp rfl
      refine wp_mono (build_views_served h₂ (by rw [hthis₂, hthis₁])
        (by rw [hthis₂, hthis₁, hthis]) (by rw [hthis₂])) ?_
      rintro r₃ st₃ w₃ ⟨-, h₃, hpass₃⟩
      exact ⟨h₃, fun _ => ⟨p, hpass₃⟩⟩

theorem construct_served (hthis : st.this = {}) (hlive : w.live = ∅) (hmade : w.made = false) :
    Served (Swapchain.construct swapchainReturn) (fun _ st' w' => Kept st' w') st w := by
  refine wp_bind.mpr (wp_tryCatch.mpr
    (wp_mono (build_served (owns_start hthis hlive hmade) hthis) ?_))
  rintro r st₁ w₁ ⟨h₁, hpass⟩
  cases r with
  | ok u => exact ⟨h₁, hpass rfl⟩
  | error e =>
    refine wp_bind.mpr (wp_mono (destroyMembers_served h₁) ?_)
    rintro r st₂ w₂ ⟨rfl, rfl, hmade₂, hlive₂⟩
    refine wp_modify_bind.mpr ?_
    have hkept : Kept { st₂ with stage := .stillborn } w₂ := by
      refine Kept.stillborn h₁ ?_ ?_ hmade₂ hlive₂
      · rfl
      · rfl
    exact hkept

theorem run_served (c : Call) (h : Kept st w) :
    Served (c.run swapchainReturn) (fun _ st' w' => Kept st' w') st w := by
  refine wp_get_bind.mpr ?_
  split
  · rename_i hc
    cases c with
    | construct =>
      rw [Kept, of_decide_eq_true hc] at h
      obtain ⟨hthis, hlive, hmade⟩ := h
      exact construct_served hthis hlive hmade
    | reset =>
      have hs : st.stage = .alive := of_decide_eq_true hc
      rw [Kept, hs] at h
      obtain ⟨h, rp, hpass⟩ := h
      refine wp_mono (reset_served h hpass) ?_
      rintro r st' w' ⟨hs', h', hpass'⟩
      rw [Kept, hs', hs]
      exact ⟨h', rp, hpass'⟩
    | destruct =>
      rw [Kept, of_decide_eq_true hc] at h
      refine wp_mono (destruct_served h.1) ?_
      rintro r st' w' ⟨hs', hlive⟩
      rw [Kept, hs']
      exact hlive
  · exact h

end

/-- Between two calls there is exactly what the members own, as long as the object is there, and
nothing after it, but the depth image when the constructor throws after it has made one. No call
is made with a handle that is gone but the destruction of a depth image after the last attempt to
make one has failed: what that attempt was to replace is destroyed once more. -/
theorem swapchain_handles {swapchainReturn : String} {t : Program}
    (h : RunUnder (Program.Step swapchainReturn) (fun _ a => a.Answers Documented)
      Program.start t) :
    (∀ op k, t.task = .call op k →
      (Fine op t.world ↔ ∀ n, op = .vmaDestroyImage n → t.world.made = true)) ∧
    ∀ r st, t.task = .ret (r, st) →
      (st.stage = .alive → ∀ o, o ∈ t.world.live ↔ st.this.Owned t.world.made o) ∧
      (st.stage = .stillborn → t.world.live = ∅ ∧ t.world.made = false ∨
        t.world.made = true ∧
          ∃ n, st.this.depthImage_ = some n ∧ t.world.live = {.depthImage n}) ∧
      (st.stage = .destroyed → t.world.live = ∅) := by
  have hbody : ∀ (c : Call) (st : Storage) (w : World), Kept st w →
      (c.run swapchainReturn).wp World.service Exact Documented (fun _ st' w' => Kept st' w') st
        (id w) := fun c st w hkept => run_served c hkept
  have hstart : Kept {} ({} : World) := ⟨rfl, rfl, rfl⟩
  refine ⟨fun op k ht => ?_, fun r st ht => ?_⟩
  · exact Client.guarded (fun st => stable (Kept st)) hbody hstart h ht
  · have hkept : Kept st t.world := Client.kept (fun st => stable (Kept st)) hbody hstart h ht
    rw [Kept] at hkept
    refine ⟨fun hs => ?_, fun hs => ?_, fun hs => ?_⟩
    · rw [hs] at hkept
      exact hkept.1.live
    · rw [hs] at hkept
      exact hkept
    · rw [hs] at hkept
      exact hkept

/-- A swapchain of one image, a reset without memory for the new depth image, and the destructor. -/
def unlucky : List Act :=
  [.enter .construct, .call .dimensions (640, 480), .call (.buildSwapchain 640 480) (.ok 0),
    .call .createRenderPass (.ok 1), .call (.getImages (some 0)) (.ok 1),
    .call (.createImageView (.presentable 0 0)) (.ok 2), .call (.vmaCreateImage 640 480) (.ok 3),
    .call (.createImageView (.depth 3)) (.ok 4),
    .call (.createFramebuffer (some 1) 2 (some 4) 640 480) (.ok 5),
    .enter .reset, .call (.destroy (.framebuffer 5)) (), .call (.destroy (.imageView 2)) (),
    .call (.destroy (.swapchain 0)) (), .call .dimensions (800, 600),
    .call (.buildSwapchain 800 600) (.ok 6), .call (.getImages (some 6)) (.ok 1),
    .call (.createImageView (.presentable 6 0)) (.ok 7), .call (.vmaDestroyImage 3) (),
    .call (.vmaCreateImage 800 600) (.error .eErrorOutOfDeviceMemory), .enter .destruct]

theorem unlucky_frees_twice : ∃ t k, follow (Program.step "") unlucky Program.start = some t ∧
    t.task = .call (.vmaDestroyImage 3) k ∧ ¬ Fine (.vmaDestroyImage 3) t.world := by
  have hend : ∃ t k, follow (Program.step "") unlucky Program.start = some t ∧
      t.task = .call (.vmaDestroyImage 3) k ∧ t.world.made = false := ⟨_, _, rfl, rfl, rfl⟩
  obtain ⟨t, k, ht, hk, hmade⟩ := hend
  have hrun : RunUnder (Program.Step "") (fun _ a => a.Answers Documented) Program.start t :=
    runUnder_of_follow ht (by
      simp only [unlucky, List.forall_mem_cons]
      refine ⟨trivial, trivial, trivial, trivial, trivial, trivial, trivial, trivial, trivial,
        trivial, trivial, trivial, trivial, trivial, trivial, trivial, trivial, trivial, ⟨_, rfl⟩,
        trivial, ?_⟩
      exact fun a ha => absurd ha List.not_mem_nil)
  refine ⟨t, k, ht, hk, fun hfine => ?_⟩
  have hmade' := ((swapchain_handles hrun).1 _ k hk).mp hfine 3 rfl
  exact Bool.false_ne_true (hmade.symm.trans hmade')

end Omulator.Surface
