import ClauseLisp.Proofs.Expr.Agreement
import ClauseLisp.Value

/-! Resolving names that the main module defines. A free reference to such a name, or a call by the
name, becomes one of a local name wherever no frame hides it. Compiling with the names known or
unknown gives expressions that are resolved to the same one, if the names are used with care. -/

namespace ClauseLisp

/-- Names that are defined in the main module, and some of them with modules in which calls by the
name are resolved. -/
structure Resolver where
  names : List Bytes
  calls : List (Home × Bytes)
  calls_names : ∀ c ∈ calls, c.2 ∈ names

namespace Resolver

variable {r : Resolver} {home : Home} {hidden : List Bytes} {name : Bytes}

def refers (r : Resolver) (hidden : List Bytes) (name : Bytes) : Bool :=
  r.names.contains name && !hidden.contains name

def reaches (r : Resolver) (home : Home) (hidden : List Bytes) (name : Bytes) : Bool :=
  r.calls.contains (home, name) && !hidden.contains name

theorem refers_iff : r.refers hidden name = true ↔ name ∈ r.names ∧ name ∉ hidden := by
  simp [refers]

theorem reaches_iff :
    r.reaches home hidden name = true ↔ (home, name) ∈ r.calls ∧ name ∉ hidden := by
  simp [reaches]

end Resolver

structure Use where
  home : Home
  name : Bytes
  called : Bool
  captured : Bool
deriving DecidableEq

namespace Expr

def hideBindings (hidden : List Bytes) (bs : List Binding) : List Bytes :=
  bs.foldl (fun hidden b => b.name :: hidden) hidden

def hideParameters (hidden : List Bytes) (ps : List Pattern) : List Bytes :=
  (Pattern.namesAll ps).reverse ++ hidden

mutual

def resolve (r : Resolver) (home : Home) (top : Bool) (hidden : List Bytes) : Expr → Expr
  | literal d => literal d
  | localRef name => localRef name
  | freeRef loc name =>
    if r.refers hidden name then localRef name else freeRef loc name
  | call loc name args =>
    if r.reaches home hidden name then
      apply loc (localRef name) (resolveAll r home false hidden args)
    else call loc name (resolveAll r home false hidden args)
  | memberCall loc h member args => memberCall loc h member (resolveAll r home false hidden args)
  | apply loc target args =>
    apply loc (resolve r home false hidden target) (resolveAll r home false hidden args)
  | operation loc op operands => operation loc op (resolveAll r home false hidden operands)
  | and left right => and (resolve r home false hidden left) (resolve r home false hidden right)
  | or left right => or (resolve r home false hidden left) (resolve r home false hidden right)
  | ifThenElse test yes no =>
    ifThenElse (resolve r home false hidden test) (resolve r home false hidden yes)
      (resolve r home false hidden no)
  | cond loc branches => cond loc (resolveBranches r home hidden branches)
  | caseOf loc scrutinee choices =>
    caseOf loc (resolve r home false hidden scrutinee) (resolveChoices r home hidden choices)
  | letIn bindings body =>
    letIn (resolveBindings r home hidden bindings)
      (resolve r home false (hideBindings hidden bindings) body)
  | lambda clause => lambda (resolveClause r home hidden clause)
  -- A function does not see the names around its definition.
  | defineFunction name exported clauses =>
    defineFunction name exported (resolveClauses r home [] clauses)
  | define name e => define name (resolve r home false hidden e)
  | sequence es =>
    if top then sequence (resolveAll r home true hidden es)
    else sequence (resolveBody r home hidden es)
  | attempt e => attempt (resolve r home false hidden e)
  | makeList elements => makeList (resolveElements r home hidden elements)
  | makeTuple es => makeTuple (resolveAll r home false hidden es)
  | defineModule name es => defineModule name (resolveAll r (.named name) true [] es)

def resolveAll (r : Resolver) (home : Home) (top : Bool) (hidden : List Bytes) :
    List Expr → List Expr
  | [] => []
  | e :: es => resolve r home top hidden e :: resolveAll r home top hidden es

def resolveBody (r : Resolver) (home : Home) (hidden : List Bytes) : List Expr → List Expr
  | [] => []
  | e :: es => resolve r home false hidden e :: resolveBody r home (e.bound ++ hidden) es

def resolveBranches (r : Resolver) (home : Home) (hidden : List Bytes) :
    List Branch → List Branch
  | [] => []
  | ⟨test, result⟩ :: bs =>
    ⟨resolve r home false hidden test, resolve r home false hidden result⟩ ::
      resolveBranches r home hidden bs

def resolveChoices (r : Resolver) (home : Home) (hidden : List Bytes) : List Choice → List Choice
  | [] => []
  | ⟨datum, body⟩ :: cs =>
    ⟨datum, resolve r home false hidden body⟩ :: resolveChoices r home hidden cs

def resolveBindings (r : Resolver) (home : Home) (hidden : List Bytes) :
    List Binding → List Binding
  | [] => []
  | ⟨name, value⟩ :: bs =>
    ⟨name, resolve r home false hidden value⟩ :: resolveBindings r home (name :: hidden) bs

def resolveElements (r : Resolver) (home : Home) (hidden : List Bytes) :
    List Element → List Element
  | [] => []
  | ⟨spliced, value⟩ :: es =>
    ⟨spliced, resolve r home false hidden value⟩ :: resolveElements r home hidden es

def resolveClause (r : Resolver) (home : Home) (hidden : List Bytes) : Clause → Clause
  | ⟨loc, parameters, guards, body⟩ =>
    ⟨loc, parameters, resolveAll r home false (hideParameters hidden parameters) guards,
      resolve r home false (hideParameters hidden parameters) body⟩

def resolveClauses (r : Resolver) (home : Home) (hidden : List Bytes) :
    List Clause → List Clause
  | [] => []
  | c :: cs => resolveClause r home hidden c :: resolveClauses r home hidden cs

end

mutual

def uses (home : Home) (top : Bool) (hidden : List Bytes) : Expr → List Use
  | literal _ => []
  | localRef _ => []
  | freeRef _ name => [⟨home, name, false, hidden.contains name⟩]
  | call _ name args =>
    ⟨home, name, true, hidden.contains name⟩ :: usesAll home false hidden args
  | memberCall _ h member args =>
    ⟨home, h ++ byte '.' :: member, true, hidden.contains (h ++ byte '.' :: member)⟩ ::
      usesAll home false hidden args
  | apply _ target args => uses home false hidden target ++ usesAll home false hidden args
  | operation _ _ operands => usesAll home false hidden operands
  | and left right => uses home false hidden left ++ uses home false hidden right
  | or left right => uses home false hidden left ++ uses home false hidden right
  | ifThenElse test yes no =>
    uses home false hidden test ++ uses home false hidden yes ++ uses home false hidden no
  | cond _ branches => usesBranches home hidden branches
  | caseOf _ scrutinee choices =>
    uses home false hidden scrutinee ++ usesChoices home hidden choices
  | letIn bindings body =>
    usesBindings home hidden bindings ++ uses home false (hideBindings hidden bindings) body
  | lambda clause => usesClause home hidden clause
  | defineFunction _ _ clauses => usesClauses home [] clauses
  | define _ e => uses home false hidden e
  | sequence es => if top then usesAll home true hidden es else usesBody home hidden es
  | attempt e => uses home false hidden e
  | makeList elements => usesElements home hidden elements
  | makeTuple es => usesAll home false hidden es
  | defineModule name es => usesAll (.named name) true [] es

def usesAll (home : Home) (top : Bool) (hidden : List Bytes) : List Expr → List Use
  | [] => []
  | e :: es => uses home top hidden e ++ usesAll home top hidden es

def usesBody (home : Home) (hidden : List Bytes) : List Expr → List Use
  | [] => []
  | e :: es => uses home false hidden e ++ usesBody home (e.bound ++ hidden) es

def usesBranches (home : Home) (hidden : List Bytes) : List Branch → List Use
  | [] => []
  | ⟨test, result⟩ :: bs =>
    uses home false hidden test ++ uses home false hidden result ++ usesBranches home hidden bs

def usesChoices (home : Home) (hidden : List Bytes) : List Choice → List Use
  | [] => []
  | ⟨_, body⟩ :: cs => uses home false hidden body ++ usesChoices home hidden cs

def usesBindings (home : Home) (hidden : List Bytes) : List Binding → List Use
  | [] => []
  | ⟨name, value⟩ :: bs => uses home false hidden value ++ usesBindings home (name :: hidden) bs

def usesElements (home : Home) (hidden : List Bytes) : List Element → List Use
  | [] => []
  | ⟨_, value⟩ :: es => uses home false hidden value ++ usesElements home hidden es

def usesClause (home : Home) (hidden : List Bytes) : Clause → List Use
  | ⟨_, parameters, guards, body⟩ =>
    usesAll home false (hideParameters hidden parameters) guards ++
      uses home false (hideParameters hidden parameters) body

def usesClauses (home : Home) (hidden : List Bytes) : List Clause → List Use
  | [] => []
  | c :: cs => usesClause home hidden c ++ usesClauses home hidden cs

end

end Expr

namespace Resolver

/-- A name that is defined is used where nothing captures it. If it is called, the call is one that
is resolved, and the name does not look like one of another module. -/
def Settles (r : Resolver) (u : Use) : Prop :=
  u.name ∈ r.names → u.captured = false ∧
    (u.called = true → (u.home, u.name) ∈ r.calls ∧ Expr.qualified? u.name = none)

end Resolver

namespace Expr

theorem eq_of_qualified? {name home member : Bytes} (h : qualified? name = some (home, member)) :
    name = home ++ byte '.' :: member := by
  unfold qualified? at h
  split at h
  · rename_i c cs d m ms htake hdrop
    have hd : d = byte '.' := by
      have hhead := List.head?_dropWhile_not (fun b => decide (b ≠ byte '.')) name
      rw [hdrop] at hhead
      simpa using hhead
    obtain ⟨rfl, rfl⟩ := Prod.mk.inj (Option.some.inj h)
    calc
      name = name.takeWhile (· ≠ byte '.') ++ name.dropWhile (· ≠ byte '.') :=
        List.takeWhile_append_dropWhile.symm
      _ = c :: cs ++ byte '.' :: m :: ms := by rw [htake, hdrop, hd]
  · simp at h

/-- The expressions bind the same name for what follows, and are resolved alike if all uses of names
in the first are settled. -/
structure ResolvedAlike (r : Resolver) (e e' : Expr) : Prop where
  bound : e'.bound = e.bound
  resolve : ∀ home top hidden, (∀ u ∈ e.uses home top hidden, r.Settles u) →
    resolve r home top hidden e = resolve r home top hidden e'

section Congruence

variable {r : Resolver} {home : Home} {top : Bool} {hidden : List Bytes} {es es' : List Expr}

theorem resolveAll_alike (h : List.Forall₂ (ResolvedAlike r) es es')
    (hu : ∀ u ∈ usesAll home top hidden es, r.Settles u) :
    resolveAll r home top hidden es = resolveAll r home top hidden es' := by
  induction h with
  | nil => rfl
  | cons he _ ih =>
    rw [usesAll, List.forall_mem_append] at hu
    rw [resolveAll, resolveAll, he.resolve _ _ _ hu.1, ih hu.2]

theorem resolveBody_alike (h : List.Forall₂ (ResolvedAlike r) es es')
    (hu : ∀ u ∈ usesBody home hidden es, r.Settles u) :
    resolveBody r home hidden es = resolveBody r home hidden es' := by
  induction h generalizing hidden with
  | nil => rfl
  | cons he _ ih =>
    rw [usesBody, List.forall_mem_append] at hu
    rw [resolveBody, resolveBody, he.resolve _ _ _ hu.1, he.bound, ih hu.2]

theorem resolveBranches_alike {bs bs' : List Branch}
    (h : List.Forall₂ (Branch.Related (ResolvedAlike r)) bs bs')
    (hu : ∀ u ∈ usesBranches home hidden bs, r.Settles u) :
    resolveBranches r home hidden bs = resolveBranches r home hidden bs' := by
  induction h with
  | nil => rfl
  | @cons b b' _ _ hb _ ih =>
    obtain ⟨test, result⟩ := b
    obtain ⟨test', result'⟩ := b'
    obtain ⟨htest, hresult⟩ := hb
    rw [usesBranches, List.forall_mem_append, List.forall_mem_append] at hu
    rw [resolveBranches, resolveBranches, htest.resolve _ _ _ hu.1.1,
      hresult.resolve _ _ _ hu.1.2, ih hu.2]

theorem resolveChoices_alike {cs cs' : List Choice}
    (h : List.Forall₂ (Choice.Related (ResolvedAlike r)) cs cs')
    (hu : ∀ u ∈ usesChoices home hidden cs, r.Settles u) :
    resolveChoices r home hidden cs = resolveChoices r home hidden cs' := by
  induction h with
  | nil => rfl
  | @cons c c' _ _ hc _ ih =>
    obtain ⟨datum, body⟩ := c
    obtain ⟨datum', body'⟩ := c'
    obtain ⟨hdatum, hbody⟩ := hc
    dsimp only at hdatum
    rw [usesChoices, List.forall_mem_append] at hu
    rw [resolveChoices, resolveChoices, hdatum, hbody.resolve _ _ _ hu.1, ih hu.2]

theorem resolveBindings_alike {bs bs' : List Binding}
    (h : List.Forall₂ (Binding.Related (ResolvedAlike r)) bs bs')
    (hu : ∀ u ∈ usesBindings home hidden bs, r.Settles u) :
    resolveBindings r home hidden bs = resolveBindings r home hidden bs' ∧
      hideBindings hidden bs' = hideBindings hidden bs := by
  induction h generalizing hidden with
  | nil => exact ⟨rfl, rfl⟩
  | @cons b b' _ _ hb _ ih =>
    obtain ⟨name, value⟩ := b
    obtain ⟨name', value'⟩ := b'
    obtain ⟨hname, hvalue⟩ := hb
    dsimp only at hname
    rw [usesBindings, List.forall_mem_append] at hu
    obtain ⟨hrest, hhide⟩ := ih hu.2
    rw [resolveBindings, resolveBindings, hname, hvalue.resolve _ _ _ hu.1, hrest]
    exact ⟨rfl, hhide⟩

theorem resolveElements_alike {es es' : List Element}
    (h : List.Forall₂ (Element.Related (ResolvedAlike r)) es es')
    (hu : ∀ u ∈ usesElements home hidden es, r.Settles u) :
    resolveElements r home hidden es = resolveElements r home hidden es' := by
  induction h with
  | nil => rfl
  | @cons e e' _ _ he _ ih =>
    obtain ⟨spliced, value⟩ := e
    obtain ⟨spliced', value'⟩ := e'
    obtain ⟨hspliced, hvalue⟩ := he
    dsimp only at hspliced
    rw [usesElements, List.forall_mem_append] at hu
    rw [resolveElements, resolveElements, hspliced, hvalue.resolve _ _ _ hu.1, ih hu.2]

theorem resolveClause_alike {c c' : Clause} (h : Clause.Related id (ResolvedAlike r) c c')
    (hu : ∀ u ∈ usesClause home hidden c, r.Settles u) :
    resolveClause r home hidden c = resolveClause r home hidden c' := by
  obtain ⟨loc, ps, guards, body⟩ := c
  obtain ⟨loc', ps', guards', body'⟩ := c'
  obtain ⟨hloc, hps, hguards, hbody⟩ := h
  dsimp only [id] at hloc hps
  rw [usesClause, List.forall_mem_append] at hu
  rw [resolveClause, resolveClause, hloc, hps, resolveAll_alike hguards hu.1,
    hbody.resolve _ _ _ hu.2]

theorem resolveClauses_alike {cs cs' : List Clause}
    (h : List.Forall₂ (Clause.Related id (ResolvedAlike r)) cs cs')
    (hu : ∀ u ∈ usesClauses home hidden cs, r.Settles u) :
    resolveClauses r home hidden cs = resolveClauses r home hidden cs' := by
  induction h with
  | nil => rfl
  | cons hc _ ih =>
    rw [usesClauses, List.forall_mem_append] at hu
    rw [resolveClauses, resolveClauses, resolveClause_alike hc hu.1, ih hu.2]

theorem congruence_resolvedAlike {known : Scope} (hknown : ∀ name ∈ known, name ∈ r.names) :
    Congruence id known (ResolvedAlike r) where
  literal _ := ⟨rfl, fun _ _ _ _ => rfl⟩
  localRef _ := ⟨rfl, fun _ _ _ _ => rfl⟩
  freeRef _ _ := ⟨rfl, fun _ _ _ _ => rfl⟩
  call loc name es es' hes := by
    refine ⟨rfl, fun home top hidden hu => ?_⟩
    rw [uses, List.forall_mem_cons] at hu
    rw [resolve, resolve, resolveAll_alike hes hu.2, id]
  memberCall loc h member es es' hes := by
    refine ⟨rfl, fun home top hidden hu => ?_⟩
    rw [uses, List.forall_mem_cons] at hu
    rw [resolve, resolve, resolveAll_alike hes hu.2, id]
  apply loc e e' es es' he hes := by
    refine ⟨rfl, fun home top hidden hu => ?_⟩
    rw [uses, List.forall_mem_append] at hu
    rw [resolve, resolve, he.resolve _ _ _ hu.1, resolveAll_alike hes hu.2, id]
  operation loc op es es' hes := by
    refine ⟨rfl, fun home top hidden hu => ?_⟩
    rw [uses] at hu
    rw [resolve, resolve, resolveAll_alike hes hu, id]
  and he hf := by
    refine ⟨rfl, fun home top hidden hu => ?_⟩
    rw [uses, List.forall_mem_append] at hu
    rw [resolve, resolve, he.resolve _ _ _ hu.1, hf.resolve _ _ _ hu.2]
  or he hf := by
    refine ⟨rfl, fun home top hidden hu => ?_⟩
    rw [uses, List.forall_mem_append] at hu
    rw [resolve, resolve, he.resolve _ _ _ hu.1, hf.resolve _ _ _ hu.2]
  ifThenElse he hf hg := by
    refine ⟨rfl, fun home top hidden hu => ?_⟩
    rw [uses, List.forall_mem_append, List.forall_mem_append] at hu
    rw [resolve, resolve, he.resolve _ _ _ hu.1.1, hf.resolve _ _ _ hu.1.2, hg.resolve _ _ _ hu.2]
  cond loc bs bs' hbs := by
    refine ⟨rfl, fun home top hidden hu => ?_⟩
    rw [uses] at hu
    rw [resolve, resolve, resolveBranches_alike hbs hu, id]
  caseOf loc e e' cs cs' he hcs := by
    refine ⟨rfl, fun home top hidden hu => ?_⟩
    rw [uses, List.forall_mem_append] at hu
    rw [resolve, resolve, he.resolve _ _ _ hu.1, resolveChoices_alike hcs hu.2, id]
  letIn hbs he := by
    refine ⟨rfl, fun home top hidden hu => ?_⟩
    rw [uses, List.forall_mem_append] at hu
    obtain ⟨hbindings, hhide⟩ := resolveBindings_alike hbs hu.1
    rw [resolve, resolve, hbindings, hhide, he.resolve _ _ _ hu.2]
  lambda hc := by
    refine ⟨rfl, fun home top hidden hu => ?_⟩
    rw [uses] at hu
    rw [resolve, resolve, resolveClause_alike hc hu]
  defineFunction name exported cs cs' hcs := by
    refine ⟨rfl, fun home top hidden hu => ?_⟩
    rw [uses] at hu
    rw [resolve, resolve, resolveClauses_alike hcs hu]
  define name e e' he := by
    refine ⟨rfl, fun home top hidden hu => ?_⟩
    rw [uses] at hu
    rw [resolve, resolve, he.resolve _ _ _ hu]
  sequence hes := by
    refine ⟨rfl, fun home top hidden hu => ?_⟩
    rw [uses] at hu
    rw [resolve, resolve]
    cases top with
    | true => exact congrArg sequence (resolveAll_alike hes hu)
    | false => exact congrArg sequence (resolveBody_alike hes hu)
  attempt he := by
    refine ⟨rfl, fun home top hidden hu => ?_⟩
    rw [uses] at hu
    rw [resolve, resolve, he.resolve _ _ _ hu]
  makeList hes := by
    refine ⟨rfl, fun home top hidden hu => ?_⟩
    rw [uses] at hu
    rw [resolve, resolve, resolveElements_alike hes hu]
  makeTuple hes := by
    refine ⟨rfl, fun home top hidden hu => ?_⟩
    rw [uses] at hu
    rw [resolve, resolve, resolveAll_alike hes hu]
  defineModule name es es' hes := by
    refine ⟨rfl, fun home top hidden hu => ?_⟩
    rw [uses] at hu
    rw [resolve, resolve, resolveAll_alike hes hu]
  knownRef loc name hname := by
    refine ⟨rfl, fun home top hidden hu => ?_⟩
    rw [uses, List.forall_mem_singleton] at hu
    have hfree := (hu (hknown name hname)).1
    have hrefers : r.refers hidden name = true :=
      Resolver.refers_iff.mpr ⟨hknown name hname, by simpa using hfree⟩
    rw [resolve, resolve, if_pos hrefers]
  knownCall loc name es es' hname hes := by
    refine ⟨rfl, fun home top hidden hu => ?_⟩
    rw [uses, List.forall_mem_cons] at hu
    obtain ⟨hfree, hcalled⟩ := hu.1 (hknown name hname)
    have hreaches : r.reaches home hidden name = true :=
      Resolver.reaches_iff.mpr ⟨(hcalled rfl).1, by simpa using hfree⟩
    rw [resolve, resolve, resolve, if_pos hreaches, resolveAll_alike hes hu.2, id]
  knownMember loc name h member es es' hname hqualified hes := by
    refine ⟨rfl, fun home top hidden hu => ?_⟩
    rw [uses, List.forall_mem_cons, ← eq_of_qualified? hqualified] at hu
    -- A name of another module is never settled when it is called.
    obtain ⟨-, hcalled⟩ := hu.1 (hknown name hname)
    have hnone := (hcalled rfl).2
    rw [hqualified] at hnone
    exact absurd hnone (Option.some_ne_none _)

end Congruence

def RefersTo (name : Bytes) (e : Expr) : Prop := e = localRef name ∨ ∃ loc, e = freeRef loc name

section Inversion

variable (r : Resolver) (home : Home) (top : Bool) (hidden : List Bytes)

/-- What two expressions are that are resolved alike: of one kind and with parts that are resolved
alike, or a reference or call that is resolved and one that did not have to be. -/
inductive Alike : Expr → Expr → Prop
  | literal (d) : Alike (literal d) (literal d)
  | localRef (name) : Alike (localRef name) (localRef name)
  | freeRef (loc name) : Alike (freeRef loc name) (freeRef loc name)
  | resolvedRef {name e e'} (hname : name ∈ r.names) (hfree : name ∉ hidden)
    (he : RefersTo name e) (he' : RefersTo name e') : Alike e e'
  | call (loc name) {es es'}
    (hes : resolveAll r home false hidden es = resolveAll r home false hidden es') :
    Alike (call loc name es) (call loc name es')
  | callApply (loc) {name target es es'} (hname : (home, name) ∈ r.calls) (hfree : name ∉ hidden)
    (htarget : RefersTo name target)
    (hes : resolveAll r home false hidden es = resolveAll r home false hidden es') :
    Alike (call loc name es) (apply loc target es')
  | applyCall (loc) {name target es es'} (hname : (home, name) ∈ r.calls) (hfree : name ∉ hidden)
    (htarget : RefersTo name target)
    (hes : resolveAll r home false hidden es = resolveAll r home false hidden es') :
    Alike (apply loc target es) (call loc name es')
  | memberCall (loc h member) {es es'}
    (hes : resolveAll r home false hidden es = resolveAll r home false hidden es') :
    Alike (memberCall loc h member es) (memberCall loc h member es')
  | apply (loc) {e e' es es'} (he : resolve r home false hidden e = resolve r home false hidden e')
    (hes : resolveAll r home false hidden es = resolveAll r home false hidden es') :
    Alike (apply loc e es) (apply loc e' es')
  | operation (loc op) {es es'}
    (hes : resolveAll r home false hidden es = resolveAll r home false hidden es') :
    Alike (operation loc op es) (operation loc op es')
  | and {e e' f f'} (he : resolve r home false hidden e = resolve r home false hidden e')
    (hf : resolve r home false hidden f = resolve r home false hidden f') :
    Alike (and e f) (and e' f')
  | or {e e' f f'} (he : resolve r home false hidden e = resolve r home false hidden e')
    (hf : resolve r home false hidden f = resolve r home false hidden f') :
    Alike (or e f) (or e' f')
  | ifThenElse {e e' f f' g g'}
    (he : resolve r home false hidden e = resolve r home false hidden e')
    (hf : resolve r home false hidden f = resolve r home false hidden f')
    (hg : resolve r home false hidden g = resolve r home false hidden g') :
    Alike (ifThenElse e f g) (ifThenElse e' f' g')
  | cond (loc) {bs bs'} (hbs : resolveBranches r home hidden bs = resolveBranches r home hidden bs') :
    Alike (cond loc bs) (cond loc bs')
  | caseOf (loc) {e e' cs cs'} (he : resolve r home false hidden e = resolve r home false hidden e')
    (hcs : resolveChoices r home hidden cs = resolveChoices r home hidden cs') :
    Alike (caseOf loc e cs) (caseOf loc e' cs')
  | letIn {bs bs' e e'} (hbs : resolveBindings r home hidden bs = resolveBindings r home hidden bs')
    (he : resolve r home false (hideBindings hidden bs) e =
      resolve r home false (hideBindings hidden bs') e') :
    Alike (letIn bs e) (letIn bs' e')
  | lambda {c c'} (hc : resolveClause r home hidden c = resolveClause r home hidden c') :
    Alike (lambda c) (lambda c')
  | defineFunction (name exported) {cs cs'}
    (hcs : resolveClauses r home [] cs = resolveClauses r home [] cs') :
    Alike (defineFunction name exported cs) (defineFunction name exported cs')
  | define (name) {e e'} (he : resolve r home false hidden e = resolve r home false hidden e') :
    Alike (define name e) (define name e')
  | topSequence {es es'} (htop : top = true)
    (hes : resolveAll r home true hidden es = resolveAll r home true hidden es') :
    Alike (sequence es) (sequence es')
  | sequence {es es'} (htop : top = false)
    (hes : resolveBody r home hidden es = resolveBody r home hidden es') :
    Alike (sequence es) (sequence es')
  | attempt {e e'} (he : resolve r home false hidden e = resolve r home false hidden e') :
    Alike (attempt e) (attempt e')
  | makeList {es es'}
    (hes : resolveElements r home hidden es = resolveElements r home hidden es') :
    Alike (makeList es) (makeList es')
  | makeTuple {es es'}
    (hes : resolveAll r home false hidden es = resolveAll r home false hidden es') :
    Alike (makeTuple es) (makeTuple es')
  | defineModule (name) {es es'}
    (hes : resolveAll r (.named name) true [] es = resolveAll r (.named name) true [] es') :
    Alike (defineModule name es) (defineModule name es')

variable {r home top hidden} {e e' : Expr}

theorem refersTo_of_resolve {name : Bytes} (h : resolve r home top hidden e = localRef name) :
    RefersTo name e := by
  cases e with
  | localRef key =>
    rw [resolve, Expr.localRef.injEq] at h
    exact Or.inl (congrArg _ h)
  | freeRef loc key =>
    rw [resolve] at h
    split at h
    · rw [Expr.localRef.injEq] at h
      exact Or.inr ⟨loc, congrArg _ h⟩
    · exact nomatch h
  | call | sequence =>
    rw [resolve] at h
    split at h <;> exact nomatch h
  | _ =>
    rw [resolve] at h
    exact nomatch h

theorem alike_of_resolve_freeRef {loc : Location} {name : Bytes}
    (h : resolve r home top hidden (freeRef loc name) = resolve r home top hidden e) :
    Alike r home top hidden (freeRef loc name) e := by
  rw [resolve] at h
  split at h
  · rename_i hrefers
    obtain ⟨hname, hfree⟩ := Resolver.refers_iff.mp hrefers
    exact .resolvedRef hname hfree (Or.inr ⟨loc, rfl⟩) (refersTo_of_resolve h.symm)
  · cases e with
    | freeRef =>
      rw [resolve] at h
      split at h
      · exact nomatch h
      · obtain ⟨rfl, rfl⟩ := Expr.freeRef.inj h
        exact .freeRef _ _
    | call | sequence =>
      rw [resolve] at h
      split at h <;> exact nomatch h
    | _ =>
      rw [resolve] at h
      exact nomatch h

theorem alike_of_resolve_call {loc : Location} {name : Bytes} {es : List Expr}
    (h : resolve r home top hidden (call loc name es) = resolve r home top hidden e) :
    Alike r home top hidden (call loc name es) e := by
  rw [resolve] at h
  cases e with
  | call loc' name' es' =>
    rw [resolve] at h
    split at h <;> split at h
    · obtain ⟨rfl, hname, hes⟩ := Expr.apply.inj h
      obtain rfl := Expr.localRef.inj hname
      exact .call _ _ hes
    · exact nomatch h
    · exact nomatch h
    · obtain ⟨rfl, rfl, hes⟩ := Expr.call.inj h
      exact .call _ _ hes
  | apply loc' target es' =>
    rw [resolve] at h
    split at h
    · rename_i hreaches
      obtain ⟨hcall, hfree⟩ := Resolver.reaches_iff.mp hreaches
      obtain ⟨rfl, htarget, hes⟩ := Expr.apply.inj h
      exact .callApply _ hcall hfree (refersTo_of_resolve htarget.symm) hes
    · exact nomatch h
  | freeRef | sequence =>
    rw [resolve] at h
    split at h <;> split at h <;> exact nomatch h
  | _ =>
    rw [resolve] at h
    split at h <;> exact nomatch h

theorem alike_of_resolve_apply {loc : Location} {target : Expr} {es : List Expr}
    (h : resolve r home top hidden (apply loc target es) = resolve r home top hidden e) :
    Alike r home top hidden (apply loc target es) e := by
  rw [resolve] at h
  cases e with
  | call loc' name es' =>
    rw [resolve] at h
    split at h
    · rename_i hreaches
      obtain ⟨hcall, hfree⟩ := Resolver.reaches_iff.mp hreaches
      obtain ⟨rfl, htarget, hes⟩ := Expr.apply.inj h
      exact .applyCall _ hcall hfree (refersTo_of_resolve htarget) hes
    · exact nomatch h
  | apply loc' target' es' =>
    rw [resolve] at h
    obtain ⟨rfl, htarget, hes⟩ := Expr.apply.inj h
    exact .apply _ htarget hes
  | freeRef | sequence =>
    rw [resolve] at h
    split at h <;> exact nomatch h
  | _ =>
    rw [resolve] at h
    exact nomatch h

theorem alike_of_resolve_sequence {es : List Expr}
    (h : resolve r home top hidden (sequence es) = resolve r home top hidden e) :
    Alike r home top hidden (sequence es) e := by
  rw [resolve] at h
  cases e with
  | sequence es' =>
    rw [resolve] at h
    cases top with
    | true => exact .topSequence rfl (Expr.sequence.inj h)
    | false => exact .sequence rfl (Expr.sequence.inj h)
  | freeRef | call =>
    rw [resolve] at h
    split at h <;> split at h <;> exact nomatch h
  | _ =>
    rw [resolve] at h
    split at h <;> exact nomatch h

theorem alike_of_resolve_localRef {name : Bytes}
    (h : resolve r home top hidden (localRef name) = resolve r home top hidden e) :
    Alike r home top hidden (localRef name) e := by
  rw [resolve] at h
  cases e with
  | localRef key =>
    rw [resolve] at h
    obtain rfl := Expr.localRef.inj h
    exact .localRef _
  | freeRef loc key =>
    rw [resolve] at h
    split at h
    · rename_i hrefers
      obtain rfl := Expr.localRef.inj h
      obtain ⟨hname, hfree⟩ := Resolver.refers_iff.mp hrefers
      exact .resolvedRef hname hfree (Or.inl rfl) (Or.inr ⟨loc, rfl⟩)
    · exact nomatch h
  | call | sequence =>
    rw [resolve] at h
    split at h <;> exact nomatch h
  | _ =>
    rw [resolve] at h
    exact nomatch h

theorem alike_of_resolve (h : resolve r home top hidden e = resolve r home top hidden e') :
    Alike r home top hidden e e' := by
  cases e with
  | localRef => exact alike_of_resolve_localRef h
  | freeRef => exact alike_of_resolve_freeRef h
  | call => exact alike_of_resolve_call h
  | apply => exact alike_of_resolve_apply h
  | sequence => exact alike_of_resolve_sequence h
  | literal =>
    cases e' <;> rw [resolve, resolve] at h <;> first
      | (obtain rfl := Expr.literal.inj h; exact .literal _)
      | cases h
      | (split at h <;> cases h)
  | memberCall =>
    cases e' <;> rw [resolve, resolve] at h <;> first
      | (obtain ⟨rfl, rfl, rfl, hes⟩ := Expr.memberCall.inj h; exact .memberCall _ _ _ hes)
      | cases h
      | (split at h <;> cases h)
  | operation =>
    cases e' <;> rw [resolve, resolve] at h <;> first
      | (obtain ⟨rfl, rfl, hes⟩ := Expr.operation.inj h; exact .operation _ _ hes)
      | cases h
      | (split at h <;> cases h)
  | and =>
    cases e' <;> rw [resolve, resolve] at h <;> first
      | (obtain ⟨he, hf⟩ := Expr.and.inj h; exact .and he hf)
      | cases h
      | (split at h <;> cases h)
  | or =>
    cases e' <;> rw [resolve, resolve] at h <;> first
      | (obtain ⟨he, hf⟩ := Expr.or.inj h; exact .or he hf)
      | cases h
      | (split at h <;> cases h)
  | ifThenElse =>
    cases e' <;> rw [resolve, resolve] at h <;> first
      | (obtain ⟨he, hf, hg⟩ := Expr.ifThenElse.inj h; exact .ifThenElse he hf hg)
      | cases h
      | (split at h <;> cases h)
  | cond =>
    cases e' <;> rw [resolve, resolve] at h <;> first
      | (obtain ⟨rfl, hbs⟩ := Expr.cond.inj h; exact .cond _ hbs)
      | cases h
      | (split at h <;> cases h)
  | caseOf =>
    cases e' <;> rw [resolve, resolve] at h <;> first
      | (obtain ⟨rfl, he, hcs⟩ := Expr.caseOf.inj h; exact .caseOf _ he hcs)
      | cases h
      | (split at h <;> cases h)
  | letIn =>
    cases e' <;> rw [resolve, resolve] at h <;> first
      | (obtain ⟨hbs, he⟩ := Expr.letIn.inj h; exact .letIn hbs he)
      | cases h
      | (split at h <;> cases h)
  | lambda =>
    cases e' <;> rw [resolve, resolve] at h <;> first
      | exact .lambda (Expr.lambda.inj h)
      | cases h
      | (split at h <;> cases h)
  | defineFunction =>
    cases e' <;> rw [resolve, resolve] at h <;> first
      | (obtain ⟨rfl, rfl, hcs⟩ := Expr.defineFunction.inj h; exact .defineFunction _ _ hcs)
      | cases h
      | (split at h <;> cases h)
  | define =>
    cases e' <;> rw [resolve, resolve] at h <;> first
      | (obtain ⟨rfl, he⟩ := Expr.define.inj h; exact .define _ he)
      | cases h
      | (split at h <;> cases h)
  | attempt =>
    cases e' <;> rw [resolve, resolve] at h <;> first
      | exact .attempt (Expr.attempt.inj h)
      | cases h
      | (split at h <;> cases h)
  | makeList =>
    cases e' <;> rw [resolve, resolve] at h <;> first
      | exact .makeList (Expr.makeList.inj h)
      | cases h
      | (split at h <;> cases h)
  | makeTuple =>
    cases e' <;> rw [resolve, resolve] at h <;> first
      | exact .makeTuple (Expr.makeTuple.inj h)
      | cases h
      | (split at h <;> cases h)
  | defineModule =>
    cases e' <;> rw [resolve, resolve] at h <;> first
      | (obtain ⟨rfl, hes⟩ := Expr.defineModule.inj h; exact .defineModule _ hes)
      | cases h
      | (split at h <;> cases h)

end Inversion

end Expr
end ClauseLisp
