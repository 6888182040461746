import Omulator.Di.Session

/-!
# The depth-first run of the recipes

What `get` and `creat` on a root injector are for, without `typeHashStack_` and
`isInCycleCheck_`: the run carries the path from the type asked for down to the type
at hand and stops at a type that is on it. A request that fails returns its exception,
which a recipe may handle; an injection that fails, recipe and all, ends the run.
While no injection fails the injector follows the run step by step; after one has
failed its type stays on `typeHashStack_`.
-/

namespace Omulator.Di
open Omulator.Lib Comp

/-- A request of the run: the types under injection, and what is asked for. -/
structure Visit where
  path : Finset Hash_t
  kind : Kind
  type : Hash_t

section
variable (ty : Types) (rec : Visit → Comp World Exn Outcome)

def dfsProg (path : Finset Hash_t) : Prog → Comp World Exn Outcome
  | .new => look fun w => change World.alloc (ret (.ok (some (.obj w.fresh))))
  | .ret p => ret (.ok p)
  | .throw e => ret (.error e)
  | .get U k => andThen (rec ⟨path, .get, U⟩) fun r => dfsProg path (k r)
  | .creat U k => andThen (rec ⟨path, .creat, U⟩) fun r => dfsProg path (k r)

def dfsRecipe (path : Finset Hash_t) (T : Hash_t) (start : ℕ) : Recipe → Comp World Exn Outcome
  | .fn body => dfsProg rec path (body start)
  | .bind impl =>
    andThen (rec ⟨path, .get, impl⟩) (carry fun p =>
      change (World.emplace_impl 0 T p) (ret (.ok none)))
  | .child => look fun w => change (World.newChild 0) (ret (.ok (some (.injector w.count))))

def dfsClosure (path : Finset Hash_t) (T : Hash_t) (recipe : Recipe) :
    Comp World Exn (Except Exn TypeContainer) := look fun w =>
  change (World.emit (.recipe T 0 0)) <|
  andThen (dfsRecipe rec path T w.trace.length recipe) (carry fun pT =>
    change (World.emit (.recipeEnd w.trace.length pT)) <|
    ret (.ok (({} : TypeContainer).reset pT).1))

/-- The injection of `T`, which is on the path by now. -/
def dfsInject (path : Finset Hash_t) (T : Hash_t) (d : DepType_t) :
    Comp World Exn (Except Exn TypeContainer) := look fun w =>
  match (w.inj 0).recipeMap_.lookup T with
  | some recipe =>
    andThen (dfsClosure rec path T recipe) (carry fun c => capture (place ty 0 T d c))
  | none =>
    if ty.is_abstract T then ret (.error (.noImpl T))
    else if ty.default_initializable T then
      match d with
      | .NEW_VALUE => capture (createInstance ty T)
      | .REFERENCE => capture (emplaceDefault ty 0 T)
    else ret (.error (.noRecipe T))

def record (T : Hash_t) (d : DepType_t) : World → World :=
  World.upd 0 fun x =>
    { x with invocationList_ := if d = .NEW_VALUE then x.invocationList_
        else x.invocationList_ ++ [T] }

def dfsMake (path : Finset Hash_t) (T : Hash_t) (d : DepType_t) :
    Comp World Exn (Except Exn TypeContainer) :=
  if T ∈ path then ret (.error (.cycle T))
  else
    andThen (dfsInject ty rec (insert T path) T d) fun
      | .error e => raise e
      | .ok c => change (record T d) (ret (.ok c))

def dfsBody (v : Visit) : Comp World Exn Outcome :=
  match v.kind with
  | .get =>
    change (World.emit (.asked .get 0 v.type)) <| look fun w =>
      if w.has_instance 0 v.type then capture (refOf 0 v.type)
      else andThen (dfsMake ty rec v.path v.type .REFERENCE) (carry fun _ =>
        capture (refOf 0 v.type))
  | .creat =>
    change (World.emit (.asked .creat 0 v.type)) <|
    andThen (dfsMake ty rec v.path v.type .NEW_VALUE) (carry fun ctr =>
      if ctr.has_value then ret (.ok ctr.release.1) else ret (.error (.creatFailed v.type)))

end

def dfs (ty : Types) (fuel : ℕ) (v : Visit) : Comp World Exn Outcome :=
  Comp.fix (dfsBody ty) fuel v

/-- The run for one request from outside: `.ok` of what the request gives back when no
injection fails, and the exception of the injection that failed otherwise. -/
def World.visit (ty : Types) (kind : Kind) (T : Hash_t) (w : World) :
    Except Exn Outcome × World :=
  (dfs ty (depth w 0 + 1) ⟨∅, kind, T⟩ w).getD (.error .outOfRange, w)

/-! ### Worlds without the bookkeeping -/

def forget : World → World :=
  World.upd 0 fun x => { x with typeHashStack_ := ∅, isInCycleCheck_ := false }

@[simp] theorem forget_count (w : World) : (forget w).count = w.count := rfl

@[simp] theorem forget_fresh (w : World) : (forget w).fresh = w.fresh := rfl

@[simp] theorem forget_trace (w : World) : (forget w).trace = w.trace := rfl

@[simp] theorem forget_has_instance (w : World) (T : Hash_t) :
    (forget w).has_instance 0 T = w.has_instance 0 T := by
  simp [forget, World.has_instance]

@[simp] theorem forget_inj_zero (w : World) : (forget w).inj 0 =
    { w.inj 0 with typeHashStack_ := ∅, isInCycleCheck_ := false } := by
  simp [forget]

theorem forget_emit (w : World) (e : Event) : forget (w.emit e) = (forget w).emit e := rfl

theorem forget_alloc (w : World) : forget w.alloc = (forget w).alloc := rfl

theorem forget_destroyAll (w : World) (as : List Addr) :
    forget (w.destroyAll as) = (forget w).destroyAll as := rfl

theorem upd_upd (w : World) (f g : Injector → Injector) :
    (w.upd 0 f).upd 0 g = w.upd 0 fun x => g (f x) := by
  simp [World.upd]

theorem forget_upd (w : World) (f g : Injector → Injector)
    (h : ∀ x : Injector,
      ({ f x with typeHashStack_ := ∅, isInCycleCheck_ := false } : Injector) =
        g { x with typeHashStack_ := ∅, isInCycleCheck_ := false }) :
    forget (w.upd 0 f) = (forget w).upd 0 g := by
  simp only [forget, upd_upd]
  exact congrArg (w.upd 0) (funext h)

theorem forget_onTypeMap (w : World) (g : TypeMap → TypeMap × List Addr) :
    forget (w.onTypeMap 0 g) = (forget w).onTypeMap 0 g := by
  have hm : ((forget w).inj 0).typeMap_ = (w.inj 0).typeMap_ := by simp
  have hu := forget_upd w (fun x => { x with typeMap_ := (g x.typeMap_).1 })
    (fun x => { x with typeMap_ := (g x.typeMap_).1 }) fun _ => rfl
  simp only [World.onTypeMap, forget_destroyAll, hu, hm]

theorem forget_emplace_ptr (w : World) (T : Hash_t) (p : Option Addr) :
    forget (w.emplace_ptr 0 T p) = (forget w).emplace_ptr 0 T p := by
  unfold World.emplace_ptr
  simp only [forget_has_instance, ← forget_onTypeMap]
  cases p with
  | none => rfl
  | some a =>
    dsimp only
    split <;> rfl

theorem forget_newChild {w : World} (h : 0 < w.count) :
    forget (w.newChild 0) = (forget w).newChild 0 := by
  have hne : (0 : ℕ) ≠ w.count := by omega
  simp only [forget, World.newChild, World.upd, Function.update_of_ne hne]
  rw [Function.update_comm hne]

theorem forget_record (w : World) (T : Hash_t) (d : DepType_t) :
    forget (record T d w) = record T d (forget w) :=
  forget_upd w _ _ fun _ => rfl

theorem forget_enter (w : World) (T : Hash_t) : forget (enter 0 T w) = forget w := by
  simp only [enter, pushType, setCycleCheck, forget, upd_upd]

theorem forget_leave (w : World) (T : Hash_t) (d : DepType_t) (b : Bool) :
    forget (leave 0 T d b w) = record T d (forget w) := by
  rw [← forget_record]
  cases b <;> simp only [leave, finish, setCycleCheck, forget, record, upd_upd, if_true,
    Bool.false_eq_true, if_false]

/-- `m` neither reads nor writes the bookkeeping. -/
def Blind {α : Type} (m : M α) : Prop :=
  ∀ w, m (forget w) = (m w).map fun x => (x.1, forget x.2)

theorem place_blind (ty : Types) (T : Hash_t) (d : DepType_t) (c : TypeContainer) :
    Blind (place ty 0 T d c) := by
  intro w
  unfold place
  split
  · rfl
  · cases d with
    | NEW_VALUE => rfl
    | REFERENCE => simp [change, ret, forget_emplace_ptr]

theorem createInstance_blind (ty : Types) (T : Hash_t) : Blind (createInstance ty T) := by
  intro w
  simp only [createInstance, look, forget_trace]
  cases ty.ctor T w.trace.length with
  | none => rfl
  | some n => rfl

theorem emplaceDefault_blind (ty : Types) (T : Hash_t) : Blind (emplaceDefault ty 0 T) := by
  intro w
  simp only [emplaceDefault, look, forget_trace, forget_has_instance]
  by_cases hhas : w.has_instance 0 T = true
  · simp only [hhas, if_true]
    rfl
  · simp only [if_neg hhas]
    cases ty.ctor T w.trace.length with
    | none => simp [change, ret, forget_onTypeMap, forget_emit, forget_alloc]
    | some n => simp [change, raise, forget_onTypeMap]

theorem refOf_blind (T : Hash_t) : Blind (refOf 0 T) := by
  intro w
  simp only [refOf, look, forget_inj_zero]
  cases (w.inj 0).typeMap_.lookup T with
  | none => rfl
  | some c => rfl

/-! ### Following the run -/

structure Rooted (R : AList fun _ : Hash_t => Recipe) (w : World) : Prop where
  wf : w.WF
  lt : 0 < w.count
  root : (w.inj 0).pUpstream_ = none
  recipes : (w.inj 0).recipeMap_ = R

/-- The bookkeeping says that exactly the types of `path` are under injection. -/
structure Book (R : AList fun _ : Hash_t => Recipe) (path : Finset Hash_t) (w : World) :
    Prop extends Rooted R w where
  stack : (w.inj 0).typeHashStack_ = path
  flag : (w.inj 0).isInCycleCheck_ = true ↔ path.Nonempty

/-- A type that is not under injection is on the stack. -/
structure Stained (R : AList fun _ : Hash_t => Recipe) (path : Finset Hash_t) (w : World) :
    Prop extends Rooted R w where
  flag : path.Nonempty → (w.inj 0).isInCycleCheck_ = true
  left : ∃ U ∈ (w.inj 0).typeHashStack_, U ∉ path

section
variable {R : AList fun _ : Hash_t => Recipe} {path : Finset Hash_t} {w w' : World}

theorem Rooted.ext (h : Rooted R w) (he : Ext 0 w w') : Rooted R w' where
  wf := he.wf h.lt h.wf
  lt := Nat.lt_of_lt_of_le h.lt he.count
  root := (he.upstream 0 h.lt).trans h.root
  recipes := (he.recipes 0 h.lt).trans h.recipes

theorem Rooted.stays {T : Hash_t} (h : Rooted R w) (hp : Placed 0 T w w') : Rooted R w' where
  wf i p hi hu := h.wf i p (hp.count ▸ hi) ((hp.stays i).2.2.2.2 ▸ hu)
  lt := hp.count ▸ h.lt
  root := (hp.stays 0).2.2.2.2.trans h.root
  recipes := (hp.stays 0).1.trans h.recipes

theorem Book.stays {T : Hash_t} (h : Book R path w) (hp : Placed 0 T w w') : Book R path w' where
  toRooted := h.toRooted.stays hp
  stack := (hp.stays 0).2.2.1.trans h.stack
  flag := by rw [(hp.stays 0).2.2.2.1]; exact h.flag

theorem Stained.stays {T : Hash_t} (h : Stained R path w) (hp : Placed 0 T w w') :
    Stained R path w' where
  toRooted := h.toRooted.stays hp
  flag := by rw [(hp.stays 0).2.2.2.1]; exact h.flag
  left := by rw [(hp.stays 0).2.2.1]; exact h.left

theorem Book.enter {T : Hash_t} (h : Book R path w) :
    Book R (insert T path) (enter 0 T w) where
  toRooted := h.toRooted.ext (Ext.enter 0 T w)
  stack := by rw [enter_inj_self, h.stack]
  flag := by rw [enter_inj_self]; simp

theorem Rooted.leave {T : Hash_t} {d : DepType_t} {b : Bool} (h : Rooted R w) :
    Rooted R (leave 0 T d b w) where
  wf i p hi hu := by
    rw [leave_count] at hi
    rw [leave_upstream] at hu
    exact h.wf i p hi hu
  lt := by rw [leave_count]; exact h.lt
  root := by rw [leave_upstream]; exact h.root
  recipes := by rw [leave_recipes]; exact h.recipes

/-- Leaving an injection with a clean path restores the path above it. -/
theorem Book.leave {T : Hash_t} {d : DepType_t} {b : Bool} (h : Book R (insert T path) w)
    (hT : T ∉ path) (hb : b = true ↔ path.Nonempty) : Book R path (leave 0 T d b w) where
  toRooted := h.toRooted.leave
  stack := by rw [leave_inj_self, h.stack, Finset.erase_insert hT]
  flag := by
    rw [leave_inj_self, h.flag.mpr (Finset.insert_nonempty T path), Bool.and_true]
    exact hb

theorem Stained.leave {T : Hash_t} {d : DepType_t} {b : Bool} (h : Stained R (insert T path) w)
    (hb : b = true ↔ path.Nonempty) : Stained R path (leave 0 T d b w) where
  toRooted := h.toRooted.leave
  flag hne := by
    rw [leave_inj_self, hb.mpr hne, h.flag (Finset.insert_nonempty T path)]
    rfl
  left := by
    obtain ⟨U, hU, hn⟩ := h.left
    rw [Finset.mem_insert, not_or] at hn
    refine ⟨U, ?_, hn.2⟩
    rw [leave_inj_self]
    exact Finset.mem_erase.mpr ⟨hn.1, hU⟩

theorem Book.stained {T : Hash_t} (h : Book R (insert T path) w) (hT : T ∉ path) :
    Stained R path w where
  toRooted := h.toRooted
  flag _ := h.flag.mpr (Finset.insert_nonempty T path)
  left := ⟨T, by rw [h.stack]; exact Finset.mem_insert_self T path, hT⟩

theorem Stained.up {T : Hash_t} (h : Stained R (insert T path) w) : Stained R path w where
  toRooted := h.toRooted
  flag _ := h.flag (Finset.insert_nonempty T path)
  left := by
    obtain ⟨U, hU, hn⟩ := h.left
    exact ⟨U, hU, fun hp => hn (Finset.mem_insert_of_mem hp)⟩

/-- Nothing a call does inside an injection takes the type off again. -/
theorem Stained.ext (h : Stained R path w) (hne : path.Nonempty) (he : Ext 0 w w') :
    Stained R path w' where
  toRooted := h.toRooted.ext he
  flag _ := (he.path 0 h.lt (h.flag hne)).1
  left := by
    obtain ⟨U, hU, hn⟩ := h.left
    exact ⟨U, (he.path 0 h.lt (h.flag hne)).2 hU, hn⟩

end

/-- How the result of the injector, `r` in `w`, compares with that of the run, `v` in `u`.
`S` is what makes a failed injection fail everything above it. -/
inductive Tracked (S : Prop) (R : AList fun _ : Hash_t => Recipe) (path : Finset Hash_t)
    {α : Type} (r : Except Exn α) (w : World) :
    Except Exn (Except Exn α) → World → Prop
  | same : Book R path w → Tracked S R path r w (.ok r) (forget w)
  | lost {e : Exn} {u : World} : Stained R path w → (S → r = .error e) →
      Tracked S R path r w (.error e) u

/-- `m`, started in `w`, follows the run of `n`. -/
def Follows (S : Prop) (R : AList fun _ : Hash_t => Recipe) (path : Finset Hash_t) {α : Type}
    (m : M α) (n : Comp World Exn (Except Exn α)) (w : World) : Prop :=
  wp m (fun r w' => ∃ v u, n (forget w) = some (v, u) ∧ Tracked S R path r w' v u) w

section
variable {S : Prop} {R : AList fun _ : Hash_t => Recipe} {path : Finset Hash_t} {w : World}
  {α β : Type}

theorem follows_ret (h : Book R path w) (a : α) : Follows S R path (ret a) (ret (.ok a)) w :=
  (wp_ret a).mpr ⟨_, _, rfl, .same h⟩

theorem follows_raise (h : Book R path w) (e : Exn) :
    Follows S R path (raise e : M α) (ret (.error e)) w :=
  (wp_raise e).mpr ⟨_, _, rfl, .same h⟩

theorem follows_change {m : M α} {n : Comp World Exn (Except Exn α)} {g g' : World → World}
    (hg : forget (g w) = g' (forget w)) (h : Follows S R path m n (g w)) :
    Follows S R path (change g m) (change g' n) w := by
  rw [Follows, wp_change]
  refine wp_mono h ?_
  rintro r w' ⟨v, u, hn, ht⟩
  exact ⟨v, u, by rw [change, ← hg]; exact hn, ht⟩

theorem follows_look {f : World → M α} {g : World → Comp World Exn (Except Exn α)}
    (h : Follows S R path (f w) (g (forget w)) w) : Follows S R path (look f) (look g) w := h

theorem follows_attempt {m : M α} {n : Comp World Exn (Except Exn α)}
    {f : Except Exn α → M β} {g : Except Exn α → Comp World Exn (Except Exn β)}
    (hm : Follows S R path m n w)
    (hsame : ∀ r w', Book R path w' → Follows S R path (f r) (g r) w')
    (hlost : ∀ r w', Stained R path w' → wp (f r) (fun r' w'' =>
      Stained R path w'' ∧ (S → ∀ e, r = .error e → r' = .error e)) w') :
    Follows S R path (attempt m f) (andThen n g) w := by
  rw [Follows, wp_attempt]
  refine wp_mono hm ?_
  rintro r w' ⟨v, u, hn, ht⟩
  cases ht with
  | same hb =>
    refine wp_mono (hsame r w' hb) ?_
    rintro r' w'' ⟨v', u', hg, ht'⟩
    exact ⟨v', u', by simp [andThen, attempt, hn, hg], ht'⟩
  | @lost e _ hs hr =>
    refine wp_mono (hlost r w' hs) ?_
    rintro r' w'' ⟨hs', hr'⟩
    exact ⟨.error e, u, by simp [andThen, attempt, hn, raise], .lost hs' fun s => hr' s e (hr s)⟩

theorem follows_andThen {m : M α} {n : Comp World Exn (Except Exn α)} {f : α → M β}
    {g : α → Comp World Exn (Except Exn β)} (hm : Follows S R path m n w)
    (hsame : ∀ a w', Book R path w' → Follows S R path (f a) (g a) w')
    (hlost : ∀ a w', Stained R path w' → wp (f a) (fun _ w'' => Stained R path w'') w') :
    Follows S R path (andThen m f) (andThen n (carry g)) w := by
  refine follows_attempt hm ?_ ?_
  · intro r w' hb
    cases r with
    | error e => exact follows_raise hb e
    | ok a => exact hsame a w' hb
  · intro r w' hs
    cases r with
    | error e =>
      refine (wp_raise e).mpr ⟨hs, ?_⟩
      intro _ e' he
      cases he
      rfl
    | ok a => exact wp_mono (hlost a w' hs) fun _ _ h => ⟨h, fun _ _ he => by cases he⟩

theorem follows_blind {m : M α} {T : Hash_t} (hm : Blind m) (h : Book R path w)
    (hp : wp m (fun _ w' => Placed 0 T w w') w) : Follows S R path m (capture m) w := by
  intro r w' hr
  refine ⟨.ok r, forget w', ?_, .same (h.stays (hp r w' hr))⟩
  rw [capture, attempt, hm w, hr]
  rfl

end

/-! ### The injector follows the run -/

/-- A recipe that passes on every exception it gets. -/
def Prog.Rethrows : Prog → Prop
  | .new | .ret _ | .throw _ => True
  | .get _ k | .creat _ k => (∀ e, k (.error e) = .throw e) ∧ ∀ p, (k (.ok p)).Rethrows

def Rethrowing (R : AList fun _ : Hash_t => Recipe) : Prop :=
  ∀ T body, R.lookup T = some (.fn body) → ∀ m, (body m).Rethrows

section
variable {ty : Types} {rec : Call → M (Option Addr)} {drec : Visit → Comp World Exn Outcome}
  {R : AList fun _ : Hash_t => Recipe} {path : Finset Hash_t}

abbrev FollowsAll (R : AList fun _ : Hash_t => Recipe) (rec : Call → M (Option Addr))
    (drec : Visit → Comp World Exn Outcome) : Prop :=
  ∀ path kind T w, Book R path w →
    Follows (Rethrowing R) R path (rec ⟨kind, 0, T⟩) (drec ⟨path, kind, T⟩) w

theorem request_follows (hext : Extends rec) (hrec : FollowsAll R rec drec)
    (hne : path.Nonempty) (kind : Kind) (U : Hash_t) (k : Outcome → Prog) (w : World)
    (hw : Book R path w)
    (hk : Rethrowing R → ∀ e, k (.error e) = .throw e)
    (hrest : ∀ r w', Book R path w' →
      Follows (Rethrowing R) R path (runProg rec 0 (k r)) (dfsProg drec path (k r)) w') :
    Follows (Rethrowing R) R path (attempt (rec ⟨kind, 0, U⟩) fun r => runProg rec 0 (k r))
      (andThen (drec ⟨path, kind, U⟩) fun r => dfsProg drec path (k r)) w := by
  refine follows_attempt (hrec path kind U w hw) hrest ?_
  intro r w' hs r' w'' hrun
  have he : Ext 0 w' w'' := runProg_ext hext 0 (k r) w' hs.wf hs.lt r' w'' hrun
  refine ⟨hs.ext hne he, ?_⟩
  intro hS e hr
  rw [hr, hk hS e] at hrun
  cases hrun
  rfl

theorem runProg_follows (hext : Extends rec) (hrec : FollowsAll R rec drec)
    (hne : path.Nonempty) (p : Prog) (hp : Rethrowing R → ∀ r, r = p → r.Rethrows) (w : World)
    (hw : Book R path w) :
    Follows (Rethrowing R) R path (runProg rec 0 p) (dfsProg drec path p) w := by
  induction p generalizing w with
  | new =>
    have hw' : Book R path w.alloc := { hw with }
    exact follows_look (follows_change (forget_alloc w) (follows_ret hw' _))
  | ret p => exact follows_ret hw p
  | throw e => exact follows_raise hw e
  | get U k ih =>
    refine request_follows hext hrec hne .get U k w hw (fun hS => (hp hS _ rfl).1) ?_
    intro r w' hw'
    refine ih r ?_ w' hw'
    intro hS q hq
    have hr := hp hS _ rfl
    cases r with
    | error e => rw [hq, hr.1 e]; trivial
    | ok a => rw [hq]; exact hr.2 a
  | creat U k ih =>
    refine request_follows hext hrec hne .creat U k w hw (fun hS => (hp hS _ rfl).1) ?_
    intro r w' hw'
    refine ih r ?_ w' hw'
    intro hS q hq
    have hr := hp hS _ rfl
    cases r with
    | error e => rw [hq, hr.1 e]; trivial
    | ok a => rw [hq]; exact hr.2 a

theorem runRecipe_follows (hext : Extends rec) (hrec : FollowsAll R rec drec)
    (hne : path.Nonempty) (T : Hash_t) (recipe : Recipe) (hl : R.lookup T = some recipe)
    (start : ℕ) (w : World) (hw : Book R path w) :
    Follows (Rethrowing R) R path (runRecipe rec 0 T start recipe)
      (dfsRecipe drec path T start recipe) w := by
  cases recipe with
  | fn body =>
    exact runProg_follows hext hrec hne _ (fun hS r hr => hr ▸ hS T body hl start) w hw
  | bind impl =>
    refine follows_andThen (hrec path .get impl w hw) ?_ ?_
    · intro p w' hw'
      have hp : Placed 0 T w' (w'.emplace_impl 0 T p) := Placed.emplace_impl 0 T p w'
      exact follows_change (forget_onTypeMap w' _) (follows_ret (hw'.stays hp) none)
    · intro p w' hs
      simp only [wp_change, wp_ret]
      exact hs.stays (Placed.emplace_impl 0 T p w')
  | child =>
    have hc := Ext.newChild 0 w
    have hlt := hw.lt
    have h0 : (w.newChild 0).inj 0 = w.inj 0 := World.newChild_inj_ne w 0 0 (by omega)
    have hw' : Book R path (w.newChild 0) :=
      ⟨hw.toRooted.ext hc, by rw [h0]; exact hw.stack, by rw [h0]; exact hw.flag⟩
    exact follows_look (follows_change (forget_newChild hw.lt) (follows_ret hw' _))

theorem Book.emit {w : World} (hw : Book R path w) (e : Event) : Book R path (w.emit e) :=
  hw.stays ((Placed.refl 0 0 w).emit e)

theorem Stained.emit {w : World} (hw : Stained R path w) (e : Event) :
    Stained R path (w.emit e) :=
  hw.stays ((Placed.refl 0 0 w).emit e)

theorem find_recipe_root {w : World} (hw : Rooted R w) (T : Hash_t) :
    w.find_recipe_ T 1 0 = (R.lookup T).map fun recipe => (0, recipe) := by
  unfold World.find_recipe_
  rw [hw.recipes, hw.root]
  cases R.lookup T <;> rfl

theorem recipeClosure_follows (hext : Extends rec) (hrec : FollowsAll R rec drec)
    (hne : path.Nonempty) (T : Hash_t) (recipe : Recipe) (hl : R.lookup T = some recipe)
    (w : World) (hw : Book R path w) :
    Follows (Rethrowing R) R path (recipeClosure rec 0 T recipe 0) (dfsClosure drec path T recipe)
      w := by
  refine follows_look (follows_change (forget_emit w _) ?_)
  refine follows_andThen
    (runRecipe_follows hext hrec hne T recipe hl w.trace.length _ (hw.emit _)) ?_ ?_
  · intro p w' hw'
    exact follows_change (forget_emit w' _) (follows_ret (hw'.emit _) _)
  · intro p w' hs
    simp only [wp_change, wp_ret]
    exact hs.emit _

theorem inject_follows (hext : Extends rec) (hrec : FollowsAll R rec drec)
    (hne : path.Nonempty) (T : Hash_t) (d : DepType_t) (w : World) (hw : Book R path w) :
    Follows (Rethrowing R) R path (inject_ ty rec 0 T d) (dfsInject ty drec path T d) w := by
  unfold inject_ dfsInject
  refine follows_look ?_
  have hl : ((forget w).inj 0).recipeMap_.lookup T = R.lookup T := by
    rw [forget_inj_zero, hw.recipes]
  rw [find_recipe_root hw.toRooted, hl]
  cases hr : R.lookup T with
  | some recipe =>
    refine follows_andThen (recipeClosure_follows hext hrec hne T recipe hr w hw) ?_ ?_
    · intro c w' hw'
      exact follows_blind (place_blind ty T d c) hw' (place_placed 0 T d c w')
    · intro c w' hs
      exact wp_mono (place_placed 0 T d c w') fun _ _ hp => hs.stays hp
  | none =>
    dsimp only [Option.map_none]
    by_cases ha : ty.is_abstract T = true
    · simp only [if_pos ha]
      exact follows_raise hw _
    · simp only [if_neg ha]
      by_cases hd : ty.default_initializable T = true
      · simp only [if_pos hd]
        cases d with
        | NEW_VALUE =>
          exact follows_blind (createInstance_blind ty T) hw (createInstance_placed 0 T w)
        | REFERENCE =>
          exact follows_blind (emplaceDefault_blind ty T) hw (emplaceDefault_placed 0 T w)
      · simp only [if_neg hd]
        exact follows_raise hw _

/-- The stack holds the path, so the check finds what is on the path. -/
theorem makeDependency_follows (hext : Extends rec) (hrec : FollowsAll R rec drec)
    (T : Hash_t) (d : DepType_t) (w : World) (hw : Book R path w) :
    Follows (Rethrowing R) R path (makeDependency_ ty rec 0 T d) (dfsMake ty drec path T d) w := by
  refine wp_makeDependency ty rec ?_ ?_
  · intro _ hT
    rw [hw.stack] at hT
    exact ⟨_, _, by simp [dfsMake, hT, ret], .same hw⟩
  · intro hnot
    have hT : T ∉ path := by
      intro hT
      have hf := hw.flag.mpr ⟨T, hT⟩
      exact hnot hf (hw.stack ▸ hT)
    refine wp_mono (inject_follows hext hrec (Finset.insert_nonempty T path) T d _ hw.enter) ?_
    rintro r w' ⟨v, u, hn, ht⟩
    rw [forget_enter] at hn
    cases ht with
    | same hb =>
      cases r with
      | error e =>
        exact ⟨.error e, forget w', by simp [dfsMake, hT, andThen, attempt, hn, raise],
          .lost (hb.stained hT) fun _ => rfl⟩
      | ok c =>
        have hu := forget_leave w' T d (w.inj 0).isInCycleCheck_
        refine ⟨.ok (.ok c), record T d (forget w'), ?_, hu ▸ .same (hb.leave hT hw.flag)⟩
        simp [dfsMake, hT, andThen, attempt, hn, change, ret]
    | @lost e _ hs hr =>
      have hm : dfsMake ty drec path T d (forget w) = some (.error e, u) := by
        simp [dfsMake, hT, andThen, attempt, hn, raise]
      cases r with
      | error e' => exact ⟨_, _, hm, .lost hs.up hr⟩
      | ok c => exact ⟨_, _, hm, .lost (hs.leave hw.flag) fun hS => by cases hr hS⟩

theorem refOf_follows (T : Hash_t) (w : World) (hw : Book R path w) :
    Follows (Rethrowing R) R path (refOf 0 T) (capture (refOf 0 T)) w :=
  follows_blind (refOf_blind T) hw (refOf_placed T T w)

theorem callBody_follows (hext : Extends rec) (hrec : FollowsAll R rec drec) :
    FollowsAll R (callBody ty rec) (dfsBody ty drec) := by
  intro path kind T w hw
  cases kind with
  | get =>
    simp only [callBody, dfsBody, get]
    refine follows_change (forget_emit w _) (follows_look ?_)
    have hup : ((w.emit (.asked .get 0 T)).inj 0).pUpstream_ = none := hw.root
    rw [forget_has_instance, hup]
    split
    · exact refOf_follows T _ (hw.emit _)
    · refine follows_andThen (makeDependency_follows hext hrec T .REFERENCE _ (hw.emit _)) ?_ ?_
      · intro _ w' hw'
        exact refOf_follows T w' hw'
      · intro _ w' hs
        exact wp_mono (refOf_placed T T w') fun _ _ hp => hs.stays hp
  | creat =>
    simp only [callBody, dfsBody, creat]
    refine follows_change (forget_emit w _) ?_
    refine follows_andThen (makeDependency_follows hext hrec T .NEW_VALUE _ (hw.emit _)) ?_ ?_
    · intro c w' hw'
      split
      · exact follows_ret hw' _
      · exact follows_raise hw' _
    · intro c w' hs
      split
      · exact (wp_ret _).mpr hs
      · exact (wp_raise _).mpr hs

theorem exec_follows (fuel : ℕ) : FollowsAll R (exec ty fuel) (dfs ty fuel) := by
  induction fuel with
  | zero => intro path kind T w _ r w' h; cases h
  | succ fuel ih => exact callBody_follows (exec_ext fuel) ih

end

/-! ### Calls from outside -/

def World.Idle (w : World) : Prop :=
  (w.inj 0).isInCycleCheck_ = false ∧ (w.inj 0).typeHashStack_ = ∅

instance (w : World) : Decidable w.Idle :=
  inferInstanceAs (Decidable (_ ∧ _))

theorem forget_idle {w : World} (h : w.Idle) : forget w = w := by
  have hx : ({ w.inj 0 with typeHashStack_ := ∅, isInCycleCheck_ := false } : Injector) =
      w.inj 0 := by rw [← h.1, ← h.2]
  simp only [forget, World.upd, hx, Function.update_eq_self]

theorem idle_book {R : AList fun _ : Hash_t => Recipe} {w : World} (hw : Rooted R w) :
    w.Idle ↔ Book R ∅ w := by
  constructor
  · intro h
    exact ⟨hw, h.2, by simp [h.1]⟩
  · intro h
    exact ⟨by simpa using h.flag, h.stack⟩

theorem Stained.not_idle {R : AList fun _ : Hash_t => Recipe} {w : World}
    (h : Stained R ∅ w) : ¬ w.Idle := by
  intro hi
  obtain ⟨U, hU, _⟩ := h.left
  rw [hi.2] at hU
  simp at hU

/-- On an idle injector the run for a call ends, and the call follows it. -/
theorem call_tracks_visit {ty : Types} {R : AList fun _ : Hash_t => Recipe} {w : World}
    (hw : Rooted R w) (hidle : w.Idle) (kind : Kind) (T : Hash_t) :
    dfs ty (depth w 0 + 1) ⟨∅, kind, T⟩ w = some (w.visit ty kind T) ∧
    Tracked (Rethrowing R) R ∅ (w.call ty ⟨kind, 0, T⟩).1 (w.call ty ⟨kind, 0, T⟩).2
      (w.visit ty kind T).1 (w.visit ty kind T).2 := by
  have hcall := exec_eq_call ty ⟨kind, 0, T⟩ w hw.wf hw.lt (Nat.lt_succ_self _)
  obtain ⟨v, u, hn, ht⟩ := exec_follows _ ∅ kind T w ((idle_book hw).mp hidle) _ _ hcall
  rw [forget_idle hidle] at hn
  have hv : w.visit ty kind T = (v, u) := by
    rw [World.visit, hn]
    rfl
  rw [hv]
  exact ⟨hn, ht⟩

end Omulator.Di
