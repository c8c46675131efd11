import Mathlib.Tactic

/-!
# Ordered search over positions

A machine says what each node does at each position: stop with a result, go to one of
several nodes at the same position, in the order of their priority, or advance to the next
position.  Along the way a state is carried, which decides nothing.

The paths of interest visit no node twice at one position (`Path`); the first of them in
the order of priorities is `Least`.  `Drains` and `Sim` describe the search that keeps one
row for each node and position instead, in the order in which they are found first.
`sim_best` says that it finds the first path, and `Walk.exists_path` that a node without
such a path has no path at all.
-/

namespace Dyn.Lib

open List

inductive Move (N S R : Type)
  | stop (result : S → R)
  | branch (kids : List (N × (S → S)))
  | advance (next : N)
  | dead

section OrderedSearch

variable {N S R : Type} (m : Nat → N → Move N S R)

/-- A path that visits no node twice at one position, by the choices made at its branches; the
nodes of `vis` are already visited. -/
inductive Path : List N → Nat → N → S → List Nat → R → Prop
  | stop {vis : List N} {pos : Nat} {n : N} {s : S} {result : S → R}
      (fresh : n ∉ vis) (move : m pos n = .stop result) : Path vis pos n s [] (result s)
  | branch {vis : List N} {pos : Nat} {n n' : N} {s : S} {kids : List (N × (S → S))} {g : S → S}
      {i : Nat} {choices : List Nat} {r : R}
      (fresh : n ∉ vis) (move : m pos n = .branch kids) (kid : kids[i]? = some (n', g))
      (tail : Path (n :: vis) pos n' (g s) choices r) : Path vis pos n s (i :: choices) r
  | advance {vis : List N} {pos : Nat} {n n' : N} {s : S} {choices : List Nat} {r : R}
      (fresh : n ∉ vis) (move : m pos n = .advance n')
      (tail : Path [] (pos + 1) n' s choices r) : Path vis pos n s choices r

/-- The first path: every other one makes a later choice where it departs. -/
def Least (vis : List N) (pos : Nat) (n : N) (s : S) (r : R) : Prop :=
  ∃ choices, Path m vis pos n s choices r ∧
    ∀ choices' r', Path m vis pos n s choices' r' →
      choices' = choices ∨ List.Lex (· < ·) choices choices'

def Dead (vis : List N) (pos : Nat) (n : N) : Prop :=
  ∀ s choices r, ¬ Path m vis pos n s choices r

/-- The first path from the first of the seeds that has one. -/
def Best (vis : List N) (pos : Nat) : List (N × S) → Option R → Prop
  | [], found => found = none
  | (n, s) :: seeds, found => Dead m vis pos n ∧ Best vis pos seeds found ∨
      ∃ r, found = some r ∧ Least m vis pos n s r

/-- A node that goes nowhere at its own position. -/
def IsLeaf (move : Move N S R) : Prop := ∀ kids, move ≠ .branch kids

/-- The search at one position: what it makes of the seeds, given the nodes seen before. -/
inductive Drains (pos : Nat) : List N → List (N × S) → List (N × S) → List N → Prop
  | nil {seen : List N} : Drains pos seen [] [] seen
  | skip {seen seen' : List N} {n : N} {s : S} {seeds leaves : List (N × S)}
      (old : n ∈ seen) (rest : Drains pos seen seeds leaves seen') :
      Drains pos seen ((n, s) :: seeds) leaves seen'
  | leaf {seen seen' : List N} {n : N} {s : S} {seeds leaves : List (N × S)}
      (fresh : n ∉ seen) (move : IsLeaf (m pos n)) (rest : Drains pos (n :: seen) seeds leaves seen') :
      Drains pos seen ((n, s) :: seeds) ((n, s) :: leaves) seen'
  | branch {seen seen1 seen2 : List N} {n : N} {s : S} {kids : List (N × (S → S))}
      {seeds leaves1 leaves2 : List (N × S)}
      (fresh : n ∉ seen) (move : m pos n = .branch kids)
      (inner : Drains pos (n :: seen) (kids.map fun kid => (kid.1, kid.2 s)) leaves1 seen1)
      (rest : Drains pos seen1 seeds leaves2 seen2) :
      Drains pos seen ((n, s) :: seeds) (leaves1 ++ leaves2) seen2

variable {pos : Nat}

variable {seen : List N} {seeds : List (N × S)}

theorem Drains.subset {seen' : List N} {leaves : List (N × S)}
    (h : Drains m pos seen seeds leaves seen') : ∀ n ∈ seen, n ∈ seen' := by
  induction h with
  | nil => exact fun n hn => hn
  | skip old rest ih => exact ih
  | leaf fresh move rest ih => exact fun n hn => ih n (mem_cons_of_mem _ hn)
  | branch fresh move inner rest ih1 ih2 =>
    exact fun n hn => ih2 n (ih1 n (mem_cons_of_mem _ hn))

theorem Drains.append {pos : Nat} {seen seen1 seen2 : List N}
    {seeds1 seeds2 leaves1 leaves2 : List (N × S)} (h : Drains m pos seen seeds1 leaves1 seen1)
    (h' : Drains m pos seen1 seeds2 leaves2 seen2) :
    Drains m pos seen (seeds1 ++ seeds2) (leaves1 ++ leaves2) seen2 := by
  induction h with
  | nil => exact h'
  | skip old rest ih => exact .skip old (ih h')
  | leaf fresh move rest ih => exact .leaf fresh move (ih h')
  | branch fresh move inner rest ih1 ih2 =>
    rw [append_assoc]
    exact .branch fresh move inner (ih2 h')

theorem Drains.split : ∀ {seen seen' : List N} {seeds1 seeds2 leaves : List (N × S)},
    Drains m pos seen (seeds1 ++ seeds2) leaves seen' → ∃ leaves1 leaves2 seen1,
      leaves = leaves1 ++ leaves2 ∧ Drains m pos seen seeds1 leaves1 seen1 ∧
        Drains m pos seen1 seeds2 leaves2 seen'
  | seen, _, [], _, leaves, h => ⟨[], leaves, seen, rfl, .nil, h⟩
  | _, _, (n, s) :: seeds1, _, _, .skip old rest => by
    obtain ⟨l1, l2, seen1, rfl, h1, h2⟩ := Drains.split rest
    exact ⟨l1, l2, seen1, rfl, .skip old h1, h2⟩
  | _, _, (n, s) :: seeds1, _, _, .leaf fresh move rest => by
    obtain ⟨l1, l2, seen1, rfl, h1, h2⟩ := Drains.split rest
    exact ⟨(n, s) :: l1, l2, seen1, rfl, .leaf fresh move h1, h2⟩
  | _, _, (n, s) :: seeds1, _, _, .branch fresh move inner rest => by
    obtain ⟨l1, l2, seen1, rfl, h1, h2⟩ := Drains.split rest
    exact ⟨_, l2, seen1, (append_assoc ..).symm, .branch fresh move inner h1, h2⟩

theorem Drains.leaves {seen' : List N} {leaves : List (N × S)}
    (h : Drains m pos seen seeds leaves seen') : ∀ leaf ∈ leaves, IsLeaf (m pos leaf.1) := by
  induction h with
  | nil => exact nofun
  | skip old rest ih => exact ih
  | leaf fresh move rest ih =>
    intro leaf hleaf
    rcases mem_cons.mp hleaf with rfl | hrest
    · exact move
    · exact ih leaf hrest
  | branch fresh move inner rest ih1 ih2 =>
    intro leaf hleaf
    rcases mem_append.mp hleaf with h | h
    · exact ih1 leaf h
    · exact ih2 leaf h

/-- The seen nodes other than those of `vis` have been searched in vain: they lead to seen nodes
only. -/
def Searched (vis : List N) (pos : Nat) (seen : List N) : Prop :=
  ∀ n ∈ seen, n ∉ vis → match m pos n with
    | .stop _ => False
    | .branch kids => ∀ kid ∈ kids, kid.1 ∈ seen
    | .advance n' => Dead m [] (pos + 1) n'
    | .dead => True

variable {m}

variable {vis : List N}

variable {n : N} {s : S} {choices : List Nat}

theorem Searched.no_path (h : Searched m vis pos seen) {vis' : List N} {r : R}
    (path : Path m vis' pos n s choices r) : (∀ x ∈ vis, x ∈ vis') → n ∉ seen := by
  induction path with
  | stop fresh move =>
    intro hvis hseen
    have hn := h _ hseen (fun hc => fresh (hvis _ hc))
    rw [move] at hn
    exact hn
  | branch fresh move kid tail ih =>
    intro hvis hseen
    have hn := h _ hseen (fun hc => fresh (hvis _ hc))
    rw [move] at hn
    exact ih h (fun x hx => mem_cons_of_mem _ (hvis x hx)) (hn _ (mem_of_getElem? kid))
  | advance fresh move tail ih =>
    intro hvis hseen
    have hn := h _ hseen (fun hc => fresh (hvis _ hc))
    rw [move] at hn
    exact hn _ _ _ tail

theorem path_of_leaf {vis' : List N} {r : R} (hleaf : IsLeaf (m pos n)) (hn : n ∉ vis')
    (h : Path m vis pos n s choices r) : Path m vis' pos n s choices r := by
  cases h with
  | stop fresh move => exact .stop hn move
  | branch fresh move kid tail => exact absurd move (hleaf _)
  | advance fresh move tail => exact .advance hn move tail

theorem leaf_iff (hleaf : IsLeaf (m pos n)) (hn : n ∉ vis) (s : S) (choices : List Nat) (r : R) :
    Path m [] pos n s choices r ↔ Path m vis pos n s choices r :=
  ⟨path_of_leaf hleaf hn, path_of_leaf hleaf (not_mem_nil)⟩

theorem Best.of_branch {kids : List (N × (S → S))} (fresh : n ∉ vis) (move : m pos n = .branch kids) :
    ∀ (before : List (N × (S → S)))
    {after : List (N × (S → S))} {r : R}, kids = before ++ after →
    (∀ kid ∈ before, Dead m (n :: vis) pos kid.1) →
    Best m (n :: vis) pos (after.map fun kid => (kid.1, kid.2 s)) (some r) → Least m vis pos n s r
  | before, [], r, _, _, hbest => by cases hbest
  | before, (n', g) :: after, r, hkids, hdead, hbest => by
    rcases hbest with ⟨hfirst, hrest⟩ | ⟨r', hr, choices, hpath, hleast⟩
    · refine Best.of_branch fresh move (before ++ [(n', g)]) ?_ ?_ hrest
      · rw [hkids, append_assoc, singleton_append]
      intro kid hkid
      rcases mem_append.mp hkid with h | h
      · exact hdead kid h
      · rw [mem_singleton.mp h]
        exact hfirst
    cases hr
    have hkid : kids[before.length]? = some (n', g) := by
      rw [hkids, getElem?_append_right le_rfl, Nat.sub_self]
      rfl
    refine ⟨before.length :: choices, .branch fresh move hkid hpath, ?_⟩
    intro choices' r' hpath'
    cases hpath' with
    | stop _ move' | advance _ move' _ => rw [move] at move'; cases move'
    | @branch _ _ _ n'' _ kids' g' i choices'' _ _ move' kid tail =>
      rw [move] at move'
      cases move'
      rcases Nat.lt_trichotomy i before.length with hless | heq | hmore
      · exfalso
        rw [hkids, getElem?_append_left hless] at kid
        exact hdead _ (mem_of_getElem? kid) _ _ _ tail
      · subst heq
        rw [hkid] at kid
        cases kid
        rcases hleast _ _ tail with rfl | hlater
        · exact .inl rfl
        · exact .inr (.cons hlater)
      · exact .inr (.rel hmore)

theorem Best.none_iff : ∀ {seeds : List (N × S)},
    Best m vis pos seeds (none : Option R) ↔ ∀ seed ∈ seeds, Dead m vis pos seed.1
  | [] => by simp [Best]
  | (n, s) :: seeds => by
    rw [Best, Best.none_iff]
    simp

theorem Best.split : ∀ {seeds1 seeds2 : List (N × S)} {found : Option R},
    Best m vis pos (seeds1 ++ seeds2) found →
      (∃ r, found = some r ∧ Best m vis pos seeds1 (some r)) ∨
        Best m vis pos seeds1 none ∧ Best m vis pos seeds2 found
  | [], _, _, h => .inr ⟨rfl, h⟩
  | (n, s) :: seeds1, _, _, h => by
    rcases h with ⟨hdead, hrest⟩ | ⟨r, rfl, hleast⟩
    · rcases Best.split hrest with ⟨r, hr, h1⟩ | ⟨h1, h2⟩
      · exact .inl ⟨r, hr, .inl ⟨hdead, h1⟩⟩
      · exact .inr ⟨.inl ⟨hdead, h1⟩, h2⟩
    · exact .inl ⟨r, rfl, .inr ⟨r, rfl, hleast⟩⟩

/-- **The search at one position keeps the first path:** what is best for the leaves is best for
the seeds, and if there is nothing, all that was seen has been searched in vain. -/
theorem Drains.best {pos : Nat} {seen seen' : List N} {seeds leaves : List (N × S)}
    (h : Drains m pos seen seeds leaves seen') : ∀ {vis : List N} {found : Option R},
    (∀ n ∈ vis, n ∈ seen) → Searched m vis pos seen → Best m [] pos leaves found →
      Best m vis pos seeds found ∧
        (found = none → Searched m vis pos seen' ∧ ∀ seed ∈ seeds, seed.1 ∈ seen') := by
  induction h with
  | nil =>
    intro vis found _ hsearched hbest
    exact ⟨hbest, fun _ => ⟨hsearched, nofun⟩⟩
  | @skip seen seen' n s seeds leaves old rest ih =>
    intro vis found hvis hsearched hbest
    obtain ⟨hseeds, hnone⟩ := ih hvis hsearched hbest
    refine ⟨.inl ⟨fun s choices r hpath => ?_, hseeds⟩, fun hfound => ?_⟩
    · exact hsearched.no_path hpath (fun _ hx => hx) old
    obtain ⟨hs, hin⟩ := hnone hfound
    refine ⟨hs, fun seed hseed => ?_⟩
    rcases mem_cons.mp hseed with rfl | hrest
    · exact rest.subset _ n old
    · exact hin seed hrest
  | @leaf seen seen' n s seeds leaves fresh move rest ih =>
    intro vis found hvis hsearched hbest
    have hfresh : n ∉ vis := fun hc => fresh (hvis n hc)
    rcases hbest with ⟨hdead, hrest⟩ | ⟨r, rfl, choices, hpath, hleast⟩
    · have hdead' : Dead m vis pos n := fun s choices r hpath =>
        hdead s choices r ((leaf_iff move hfresh s choices r).mpr hpath)
      have hsearched' : Searched m vis pos (n :: seen) := by
        intro x hx hxv
        rcases mem_cons.mp hx with rfl | hx
        · cases hmove : m pos x with
          | stop result => exact hdead' s _ _ (.stop hfresh hmove)
          | branch kids => exact absurd hmove (move kids)
          | advance n' => exact fun s choices r hpath => hdead' s _ _ (.advance hfresh hmove hpath)
          | dead => trivial
        have hx := hsearched x hx hxv
        cases hmove : m pos x with
        | stop result => rw [hmove] at hx; exact hx
        | branch kids =>
          rw [hmove] at hx
          exact fun kid hkid => mem_cons_of_mem _ (hx kid hkid)
        | advance n' => rw [hmove] at hx; exact hx
        | dead => trivial
      obtain ⟨hseeds, hnone⟩ :=
        ih (fun x hx => mem_cons_of_mem _ (hvis x hx)) hsearched' hrest
      refine ⟨.inl ⟨hdead', hseeds⟩, fun hfound => ?_⟩
      obtain ⟨hs, hin⟩ := hnone hfound
      refine ⟨hs, fun seed hseed => ?_⟩
      rcases mem_cons.mp hseed with rfl | hseed
      · exact rest.subset _ n mem_cons_self
      · exact hin seed hseed
    · refine ⟨.inr ⟨r, rfl, choices, (leaf_iff move hfresh s choices r).mp hpath, ?_⟩,
        nofun⟩
      exact fun choices' r' hpath' => hleast _ _ ((leaf_iff move hfresh s choices' r').mpr hpath')
  | @branch seen seen1 seen2 n s kids seeds leaves1 leaves2 fresh move inner rest ih1 ih2 =>
    intro vis found hvis hsearched hbest
    have hfresh : n ∉ vis := fun hc => fresh (hvis n hc)
    have hsearched' : Searched m (n :: vis) pos (n :: seen) := by
      intro x hx hxv
      have hne : x ≠ n := fun hc => hxv (hc ▸ mem_cons_self)
      have hx := hsearched x (mem_of_ne_of_mem hne hx)
        (fun hc => hxv (mem_cons_of_mem _ hc))
      cases hmove : m pos x with
      | stop result => rw [hmove] at hx; exact hx
      | branch kids =>
        rw [hmove] at hx
        exact fun kid hkid => mem_cons_of_mem _ (hx kid hkid)
      | advance n' => rw [hmove] at hx; exact hx
      | dead => trivial
    have hvis' : ∀ x ∈ n :: vis, x ∈ n :: seen := by
      intro x hx
      rcases mem_cons.mp hx with rfl | hx
      · exact mem_cons_self
      · exact mem_cons_of_mem _ (hvis x hx)
    rcases hbest.split with ⟨r, rfl, h1⟩ | ⟨h1, h2⟩
    · obtain ⟨hkids, _⟩ := ih1 hvis' hsearched' h1
      have hleast := Best.of_branch hfresh move [] rfl nofun hkids
      exact ⟨.inr ⟨r, rfl, hleast⟩, nofun⟩
    obtain ⟨hkids, hnone⟩ := ih1 hvis' hsearched' h1
    obtain ⟨hs1, hin1⟩ := hnone rfl
    have hdead : Dead m vis pos n := by
      intro s' choices r hpath
      cases hpath with
      | stop _ move' | advance _ move' _ => rw [move] at move'; cases move'
      | branch _ move' kid tail =>
        rw [move] at move'
        cases move'
        have hkid := Best.none_iff.mp hkids _ (mem_map.mpr ⟨_, mem_of_getElem? kid, rfl⟩)
        exact hkid _ _ _ tail
    have hs1' : Searched m vis pos seen1 := by
      intro x hx hxv
      by_cases hxn : x = n
      · subst hxn
        rw [move]
        intro kid hkid
        exact hin1 (kid.1, kid.2 s) (mem_map.mpr ⟨kid, hkid, rfl⟩)
      refine hs1 x hx (fun hc => ?_)
      rcases mem_cons.mp hc with h | h
      · exact hxn h
      · exact hxv h
    obtain ⟨hseeds, hnone2⟩ :=
      ih2 (fun x hx => inner.subset _ x (hvis' x (mem_cons_of_mem _ hx))) hs1' h2
    refine ⟨.inl ⟨hdead, hseeds⟩, fun hfound => ?_⟩
    obtain ⟨hs2, hin2⟩ := hnone2 hfound
    refine ⟨hs2, fun seed hseed => ?_⟩
    rcases mem_cons.mp hseed with rfl | hseed
    · exact rest.subset _ n (inner.subset _ n mem_cons_self)
    · exact hin2 seed hseed

variable (m)

/-- What a position makes of its rows: the seeds of the next one, from the rows before the first
that stops, and the result of that one. -/
inductive Harvest (pos : Nat) : List (N × S) → List (N × S) → Option R → Prop
  | nil : Harvest pos [] [] none
  | stop {n : N} {s : S} {result : S → R} {rows : List (N × S)} (move : m pos n = .stop result) :
      Harvest pos ((n, s) :: rows) [] (some (result s))
  | advance {n n' : N} {s : S} {rows seeds : List (N × S)} {found : Option R}
      (move : m pos n = .advance n') (rest : Harvest pos rows seeds found) :
      Harvest pos ((n, s) :: rows) ((n', s) :: seeds) found
  | dead {n : N} {s : S} {rows seeds : List (N × S)} {found : Option R}
      (move : m pos n = .dead) (rest : Harvest pos rows seeds found) :
      Harvest pos ((n, s) :: rows) seeds found

/-- The search from the rows of a position on, with the result found before. -/
inductive Sim : Nat → List (N × S) → Option R → Option R → Prop
  | done {pos : Nat} {found : Option R} : Sim pos [] found found
  | step {pos : Nat} {rows seeds leaves : List (N × S)} {seen : List N} {found stop result : Option R}
      (harvest : Harvest m pos rows seeds stop) (drains : Drains m (pos + 1) [] seeds leaves seen)
      (rest : Sim (pos + 1) leaves (stop <|> found) result) : Sim pos rows found result

variable {m}

theorem Harvest.best {pos : Nat} {rows seeds : List (N × S)} {stop found : Option R}
    (h : Harvest m pos rows seeds stop) : Best m [] (pos + 1) seeds found →
      Best m [] pos rows (found <|> stop) := by
  induction h with
  | nil =>
    intro hbest
    cases hbest
    rfl
  | @stop n s result rows move =>
    intro hbest
    cases hbest
    refine .inr ⟨result s, rfl, [], .stop not_mem_nil move, fun choices' r' hpath => ?_⟩
    cases hpath with
    | stop _ _ => exact .inl rfl
    | branch _ move' _ _ | advance _ move' _ => rw [move] at move'; cases move'
  | @advance n n' s rows seeds stop move rest ih =>
    intro hbest
    rcases hbest with ⟨hdead, hrest⟩ | ⟨r, rfl, choices, hpath, hleast⟩
    · refine .inl ⟨fun s' choices r hpath => ?_, ih hrest⟩
      cases hpath with
      | stop _ move' | branch _ move' _ _ => rw [move] at move'; cases move'
      | advance _ move' tail =>
        rw [move] at move'
        cases move'
        exact hdead _ _ _ tail
    refine .inr ⟨r, rfl, choices, .advance not_mem_nil move hpath, ?_⟩
    intro choices' r' hpath'
    cases hpath' with
    | stop _ move' | branch _ move' _ _ => rw [move] at move'; cases move'
    | advance _ move' tail =>
      rw [move] at move'
      cases move'
      exact hleast _ _ tail
  | @dead n s rows seeds stop move rest ih =>
    intro hbest
    refine .inl ⟨fun s' choices r hpath => ?_, ih hbest⟩
    cases hpath with
    | stop _ move' | branch _ move' _ _ | advance _ move' _ => rw [move] at move'; cases move'

theorem Sim.best {pos : Nat} {rows : List (N × S)} {found result : Option R}
    (h : Sim m pos rows found result) : ∃ best, Best m [] pos rows best ∧ result = (best <|> found) := by
  induction h with
  | done => exact ⟨none, rfl, rfl⟩
  | @step pos rows seeds leaves seen found stop result harvest drains rest ih =>
    obtain ⟨best, hbest, hresult⟩ := ih
    have hseeds := (@Drains.best _ _ _ _ _ _ _ _ _ drains [] _ nofun
      (fun _ hc _ => by cases hc) hbest).1
    refine ⟨(best <|> stop), harvest.best hseeds, ?_⟩
    rw [hresult]
    cases best <;> rfl

theorem search_best {leaves : List (N × S)} {result : Option R}
    (drains : Drains m pos [] [(n, s)] leaves seen) (sim : Sim m pos leaves none result) :
    (∃ r, result = some r ∧ Least m [] pos n s r) ∨ result = none ∧ Dead m [] pos n := by
  obtain ⟨best, hbest, hresult⟩ := sim.best
  have hsame : result = best := by
    rw [hresult]
    cases best <;> rfl
  rw [hsame]
  have hseeds := (@Drains.best _ _ _ _ _ _ _ _ _ drains [] _ nofun (fun _ hc _ => by cases hc) hbest).1
  rcases hseeds with ⟨hdead, hnone⟩ | ⟨r, hr, hleast⟩
  · exact .inr ⟨hnone, hdead⟩
  · exact .inl ⟨r, hr, hleast⟩

variable (m)

/-- A path of the given number of steps that may visit a node again, but none of `vis`. -/
inductive Walk : List N → Nat → Nat → N → Nat → Prop
  | stop {vis : List N} {pos : Nat} {n : N} {result : S → R}
      (fresh : n ∉ vis) (move : m pos n = .stop result) : Walk vis 0 pos n pos
  | branch {vis : List N} {steps pos fin : Nat} {n : N} {kids : List (N × (S → S))}
      {kid : N × (S → S)} (fresh : n ∉ vis) (move : m pos n = .branch kids) (mem : kid ∈ kids)
      (tail : Walk vis steps pos kid.1 fin) : Walk vis (steps + 1) pos n fin
  | advance {vis : List N} {steps pos fin : Nat} {n n' : N}
      (fresh : n ∉ vis) (move : m pos n = .advance n')
      (tail : Walk [] steps (pos + 1) n' fin) : Walk vis (steps + 1) pos n fin

variable {m}

theorem Walk.avoid {steps fin : Nat} {x : N} (h : Walk m vis steps pos x fin) (n : N) :
    Walk m (n :: vis) steps pos x fin ∨ ∃ steps' ≤ steps, Walk m vis steps' pos n fin := by
  induction h with
  | @stop vis pos x result fresh move =>
    by_cases hx : x = n
    · subst hx
      exact .inr ⟨0, le_refl 0, .stop fresh move⟩
    · exact .inl (.stop (fun hc => (mem_cons.mp hc).elim hx fresh) move)
  | @branch vis steps pos fin x kids kid fresh move mem tail ih =>
    by_cases hx : x = n
    · subst hx
      exact .inr ⟨_, le_rfl, .branch fresh move mem tail⟩
    rcases ih with hleft | ⟨steps', hle, hright⟩
    · exact .inl (.branch (fun hc => (mem_cons.mp hc).elim hx fresh) move mem hleft)
    · exact .inr ⟨steps', Nat.le_succ_of_le hle, hright⟩
  | @advance vis steps pos fin x n' fresh move tail ih =>
    by_cases hx : x = n
    · subst hx
      exact .inr ⟨_, le_rfl, .advance fresh move tail⟩
    · exact .inl (.advance (fun hc => (mem_cons.mp hc).elim hx fresh) move tail)

theorem Walk.exists_path {steps : Nat} {fin : Nat} (h : Walk m vis steps pos n fin) (s : S) :
    ∃ choices r, Path m vis pos n s choices r := by
  induction steps using Nat.strong_induction_on generalizing vis pos fin n s with
  | _ steps ih =>
    cases h with
    | stop fresh move => exact ⟨[], _, .stop fresh move⟩
    | advance fresh move tail =>
      obtain ⟨choices, r, hpath⟩ := ih _ (Nat.lt_succ_self _) tail s
      exact ⟨choices, r, .advance fresh move hpath⟩
    | @branch _ steps _ _ _ kids kid fresh move mem tail =>
      obtain ⟨i, hi⟩ := mem_iff_getElem?.mp mem
      rcases tail.avoid n with havoid | ⟨steps', hle, hagain⟩
      · obtain ⟨choices, r, hpath⟩ := ih _ (Nat.lt_succ_self _) havoid (kid.2 s)
        exact ⟨i :: choices, r, .branch fresh move hi hpath⟩
      · exact ih _ (Nat.lt_succ_of_le hle) hagain s

end OrderedSearch

end Dyn.Lib
