import Mathlib.Data.List.AList
import Mathlib.Data.List.Induction

/-! # Servlet dispatch (`servlet.cc`)

`ServletDispatch` has a map from paths to servlets, a list of glob patterns with theirs,
and a default.  A pattern that is added again is erased from the list first, so it moves
to the end; only its first entry is erased, so there had better be no other.

* **`exec_globs`** — one call keeps each pattern at most once, in the order of the last
  additions.
* **`servlet_dispatch`** — what a path gets after any calls. -/

namespace SylarServlet

open List

/-! ## The code -/

abbrev Uri := List UInt8

/-- `ServletDispatch`, over the type of servlets. -/
structure ServletDispatch (S : Type) where
  m_datas : AList fun _ : Uri => S
  m_globs : List (Uri × S)
  m_default : S

variable {S : Type}

/-- The constructor; `notFound` is the `NotFoundServlet`. -/
def ServletDispatch.new (notFound : S) : ServletDispatch S := ⟨∅, [], notFound⟩

/-- The loop that erases the first entry of a pattern. -/
def eraseGlob (uri : Uri) (m_globs : List (Uri × S)) : List (Uri × S) :=
  m_globs.eraseP fun g => g.1 = uri

/-- The calls that change it; those with a callback make a `FunctionServlet` of it. -/
inductive Op (S : Type) where
  | addServlet (uri : Uri) (slt : S)
  | addGlobServlet (uri : Uri) (slt : S)
  | delServlet (uri : Uri)
  | delGlobServlet (uri : Uri)
  | setDefault (v : S)

def exec (d : ServletDispatch S) : Op S → ServletDispatch S
  | .addServlet uri slt => { d with m_datas := d.m_datas.insert uri slt }
  | .addGlobServlet uri slt => { d with m_globs := eraseGlob uri d.m_globs ++ [(uri, slt)] }
  | .delServlet uri => { d with m_datas := d.m_datas.erase uri }
  | .delGlobServlet uri => { d with m_globs := eraseGlob uri d.m_globs }
  | .setDefault v => { d with m_default := v }

def run (d : ServletDispatch S) (ops : List (Op S)) : ServletDispatch S := ops.foldl exec d

/-- `getMatchedServlet`; `fnmatch` says whether a pattern matches a path. -/
def getMatchedServlet (fnmatch : Uri → Uri → Bool) (d : ServletDispatch S) (uri : Uri) : S :=
  match d.m_datas.lookup uri with
  | some slt => slt
  | none =>
    match d.m_globs.find? fun g => fnmatch g.1 uri with
    | some g => g.2
    | none => d.m_default

/-! ## What the calls ask for -/

/-- What a call says about the exact path. -/
def Op.exact (uri : Uri) : Op S → Option (Option S)
  | .addServlet u slt => if u = uri then some (some slt) else none
  | .delServlet u => if u = uri then some none else none
  | _ => none

/-- The call is about the glob pattern. -/
def Op.isGlob (uri : Uri) : Op S → Bool
  | .addGlobServlet u _ | .delGlobServlet u => u = uri
  | _ => false

def Op.default : Op S → Option S
  | .setDefault v => some v
  | _ => none

/-- The servlet last added for the path, if it has not been deleted since. -/
def registered (uri : Uri) (ops : List (Op S)) : Option S :=
  (ops.reverse.findSome? (Op.exact uri)).join

/-- The additions of glob patterns that no later call for the pattern follows, in their order. -/
def lastGlobs : List (Op S) → List (Uri × S)
  | [] => []
  | .addGlobServlet uri slt :: later =>
    if later.any (Op.isGlob uri) then lastGlobs later else (uri, slt) :: lastGlobs later
  | _ :: later => lastGlobs later

/-- The default that was last set. -/
def defaultOf (notFound : S) (ops : List (Op S)) : S :=
  (ops.reverse.findSome? Op.default).getD notFound

/-! ## One call -/

/-- Where each pattern is at most once, all its entries are erased. -/
theorem eraseGlob_spec {l : List (Uri × S)} (uri : Uri) (h : (l.map Prod.fst).Nodup) :
    eraseGlob uri l = l.filter fun g => !decide (uri = g.1) := by
  induction l with
  | nil => rfl
  | cons g l ih =>
    obtain ⟨hg, hl⟩ := nodup_cons.mp h
    rw [eraseGlob, eraseP_cons, filter_cons, ← ih hl]
    by_cases hu : g.1 = uri
    · have hrest : eraseGlob uri l = l := by
        refine eraseP_of_forall_not fun x hx hxu => hg ?_
        rw [hu, ← of_decide_eq_true hxu]
        exact mem_map_of_mem hx
      simp [hu, hrest]
    · simp [hu, Ne.symm hu, eraseGlob]

/-- A call at the end takes the additions of its pattern away. -/
theorem lastGlobs_append (ops : List (Op S)) (op : Op S) : lastGlobs (ops ++ [op])
      = (lastGlobs ops).filter (fun g => !op.isGlob g.1) ++ lastGlobs [op] := by
  induction ops with
  | nil => rfl
  | cons a ops ih =>
    cases a with
    | addGlobServlet uri slt =>
      rw [cons_append, lastGlobs, lastGlobs, ih, any_append]
      by_cases hlater : ops.any (Op.isGlob uri) = true
      · simp [hlater]
      · cases hop : op.isGlob uri <;> simp [hlater, hop]
    | addServlet | delServlet | delGlobServlet | setDefault => exact ih

/-- **The patterns**: each at most once, in the order of the last additions. -/
theorem exec_globs {d : ServletDispatch S} {ops : List (Op S)} (hd : d.m_globs = lastGlobs ops)
    (hnodup : (d.m_globs.map Prod.fst).Nodup) (op : Op S) :
    (exec d op).m_globs = lastGlobs (ops ++ [op]) ∧ ((exec d op).m_globs.map Prod.fst).Nodup := by
  rw [lastGlobs_append, ← hd]
  have hkept : ∀ uri, ((eraseGlob uri d.m_globs).map Prod.fst).Nodup := fun uri =>
    hnodup.sublist (eraseP_sublist.map _)
  cases op with
  | addGlobServlet uri slt =>
    refine ⟨congrArg (· ++ _) (eraseGlob_spec uri hnodup), ?_⟩
    show ((eraseGlob uri d.m_globs ++ [(uri, slt)]).map Prod.fst).Nodup
    rw [map_append, nodup_append]
    refine ⟨hkept uri, nodup_singleton _, fun a ha b hb heq => ?_⟩
    obtain ⟨g, hg, rfl⟩ := mem_map.mp ha
    rw [eraseGlob_spec uri hnodup, mem_filter] at hg
    simp [heq, mem_singleton.mp hb] at hg
  | delGlobServlet uri =>
    refine ⟨?_, hkept uri⟩
    exact (eraseGlob_spec uri hnodup).trans (append_nil _).symm
  | addServlet | delServlet | setDefault =>
    exact ⟨by simp [exec, Op.isGlob, lastGlobs], hnodup⟩

/-- The map and the default after one call. -/
theorem exec_rest (d : ServletDispatch S) (op : Op S) (uri : Uri) :
    (exec d op).m_datas.lookup uri = ((op.exact uri).getD (d.m_datas.lookup uri))
      ∧ (exec d op).m_default = op.default.getD d.m_default := by
  cases op with
  | addServlet u slt =>
    by_cases hu : u = uri
    · subst hu
      simp [exec, Op.exact, Op.default]
    · simp [exec, Op.exact, Op.default, hu, AList.lookup_insert_ne (Ne.symm hu)]
  | delServlet u =>
    by_cases hu : u = uri
    · subst hu
      simp [exec, Op.exact, Op.default]
    · simp [exec, Op.exact, Op.default, hu, AList.lookup_erase_ne (Ne.symm hu)]
  | addGlobServlet | delGlobServlet | setDefault => exact ⟨rfl, rfl⟩

/-! ## Any calls -/

/-- The state after the calls is what they ask for. -/
theorem run_spec (notFound : S) (ops : List (Op S)) :
    (∀ uri, (run (.new notFound) ops).m_datas.lookup uri = registered uri ops)
      ∧ (run (.new notFound) ops).m_globs = lastGlobs ops
      ∧ ((run (.new notFound) ops).m_globs.map Prod.fst).Nodup
      ∧ (run (.new notFound) ops).m_default = defaultOf notFound ops := by
  induction ops using reverseRecOn with
  | nil => exact ⟨fun _ => rfl, rfl, nodup_nil, rfl⟩
  | append_singleton ops op ih =>
    obtain ⟨hdatas, hglobs, hnodup, hdefault⟩ := ih
    have hlast : run (.new notFound) (ops ++ [op]) = exec (run (.new notFound) ops) op :=
      foldl_concat ..
    obtain ⟨hglobs', hnodup'⟩ := exec_globs hglobs hnodup op
    rw [hlast]
    refine ⟨fun uri => ?_, hglobs', hnodup', ?_⟩
    · rw [(exec_rest _ op uri).1, hdatas, registered, registered, reverse_concat, findSome?_cons]
      cases op.exact uri <;> rfl
    · rw [(exec_rest _ op []).2, hdefault, defaultOf, defaultOf, reverse_concat, findSome?_cons]
      cases op.default <;> rfl

/-- **What a path gets**: the servlet of the path, else that of the first matching pattern in the
order of the last additions, else the default; and each pattern is there at most once. -/
theorem servlet_dispatch (fnmatch : Uri → Uri → Bool) (notFound : S) (ops : List (Op S))
    (uri : Uri) :
    getMatchedServlet fnmatch (run (.new notFound) ops) uri = ((registered uri ops).or
            (((lastGlobs ops).find? fun g => fnmatch g.1 uri).map Prod.snd)).getD
          (defaultOf notFound ops)
      ∧ ((run (.new notFound) ops).m_globs.map Prod.fst).Nodup := by
  obtain ⟨hdatas, hglobs, hnodup, hdefault⟩ := run_spec notFound ops
  refine ⟨?_, hnodup⟩
  rw [getMatchedServlet, hdatas, hglobs, hdefault]
  cases registered uri ops with
  | some slt => rfl
  | none => cases (lastGlobs ops).find? fun g => fnmatch g.1 uri <;> rfl

end SylarServlet
