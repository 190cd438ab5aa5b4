import Nlutils.Hash.Atomic
import Nlutils.UrlReq.Code

/-! # Copying the parameters of a request (`clone_params`)

The hashes of the parameters are those of `hash.c`, in memory that may run out. A run of `clone_params` is one of those
in which flags say what fails. -/

namespace Nlutils.UrlReq.Cloning
open Lib

/-- `struct nl_url_params`, with the addresses of its hashes. -/
structure ParamPtrs where
  method : Option Bytes := none
  url : Option Bytes := none
  body : RawData := ⟨0, none⟩
  headers : Option Addr := none
  form : Option Addr := none
  formType : Int := 0
  connectTimeout : Int := 0
  requestTimeout : Int := 0
  deriving DecidableEq, Repr

/-- What `clone_params` uses of `struct nl_url_req`: method and URL are those of its result. -/
structure ReqPtrs where
  method : Bytes
  url : Option Bytes
  hasBody : Bool := false
  params : ParamPtrs := {}
  deriving DecidableEq, Repr

/-- `nl_copy_data` of data that is there asks for memory if the size is not zero. -/
def copyBody (alloc : Nat → Bool) (body : RawData) (m : HashMem) : RawData × HashMem :=
  (nlCopyData (alloc m.allocs) body, if body.size > 0 then { m with allocs := m.allocs + 1 } else m)

/-- The part of `clone_params` for one of the hashes: whether it goes on, the pointer in the request, which has been
    `old`, and the memory. -/
def cloneHash (alloc : Nat → Bool) (hash old : Option Addr) (m : HashMem) : Option (Bool × Option Addr × HashMem) :=
  match hash with
  | none => some (true, old, m)
  | some h => (nlHashClone alloc (some h) m).map fun r => (r.1.isSome, r.1, r.2)

/-- The part of `clone_params` for the body; what `nl_copy_data` returns is not looked at. -/
def cloneBody (alloc : Nat → Bool) (body : RawData) (req : ReqPtrs) (m : HashMem) : ReqPtrs × HashMem :=
  if body.data.isSome then
    let copy := copyBody alloc body m
    ({ req with hasBody := true, params := { req.params with body := copy.1 } }, copy.2)
  else (req, m)

/-- `clone_params` from where the body has been copied. -/
def cloneHashes (alloc : Nat → Bool) (req : ReqPtrs) (params : ParamPtrs) (m : HashMem) :
    Option (Int × ReqPtrs × HashMem) :=
  (cloneHash alloc params.headers req.params.headers m).bind fun (ok, headers, m) =>
    let req := { req with params := { req.params with headers := headers } }
    if !ok then some (-1, req, m) else
    (cloneHash alloc params.form req.params.form m).bind fun (ok, form, m) =>
      let req := { req with params := { req.params with form := form } }
      if !ok then some (-1, req, m) else
      some (0, { req with params := { req.params with
        formType := params.formType
        connectTimeout := params.connectTimeout
        requestTimeout := params.requestTimeout } }, m)

/-- `clone_params`; both of its pointers are there. -/
def cloneParams (alloc : Nat → Bool) (req : ReqPtrs) (params : ParamPtrs) (m : HashMem) :
    Option (Int × ReqPtrs × HashMem) :=
  let req := { req with params := { req.params with method := some req.method, url := req.url } }
  let copied := cloneBody alloc params.body req m
  cloneHashes alloc copied.1 params copied.2

/-- The request that `nl_url_req_add` has made when it calls `clone_params`. -/
def newReq (params : ParamPtrs) : ReqPtrs where
  method := (params.method.getD (bytes "GET")).take 15
  url := some (nlUrlEncode (params.url.getD []) true true)

@[simp] theorem newReq_params (params : ParamPtrs) : (newReq params).params = {} := rfl
@[simp] theorem newReq_hasBody (params : ParamPtrs) : (newReq params).hasBody = false := rfl

/-! ### What the request is sent with -/

/-- The pairs that an iteration over the hash delivers, one after the other. -/
def hashPairs (hash : Option Addr) (m : HashMem) : Option (List (Bytes × Bytes)) :=
  (nlHashIterate hash (pureCallback fun ps key value => (0, ps ++ [(key, value)])) [] m).map (·.1)

/-- Neither is there, or both are and hold the same pairs in the same order. -/
def SameHash (m : HashMem) (p : Option Addr) (m' : HashMem) (p' : Option Addr) : Prop :=
  p'.isSome = p.isSome ∧ ∃ ps, hashPairs p m = some ps ∧ hashPairs p' m' = some ps

/-- The bytes of raw data, if it has as many as its size says. -/
def contents (data : RawData) : Option Bytes := if data.size = 0 then some [] else data.data.map (·.take data.size)

/-- The request has the body, the headers and the form that were given. -/
structure SameParams (m : HashMem) (params : ParamPtrs) (m' : HashMem) (req : ReqPtrs) : Prop where
  size : req.params.body.size = params.body.size
  contents : contents req.params.body = contents params.body
  hasBody : req.hasBody = true ↔ params.body.data ≠ none
  headers : SameHash m params.headers m' req.params.headers
  form : SameHash m params.form m' req.params.form

/-- The parameters of the requests' run, in which a hash is the list of its pairs. -/
def ParamPtrs.toParams (params : ParamPtrs) (m : HashMem) : Params where
  method := params.method
  url := params.url
  body := params.body
  headers := params.headers.map fun h => (hashPairs (some h) m).getD []
  form := params.form.map fun h => (hashPairs (some h) m).getD []
  formType := params.formType
  connectTimeout := params.connectTimeout
  requestTimeout := params.requestTimeout

/-- `nl_url_req_add` returns an error if its `clone_params` returns this, whatever else fails. -/
def AddRefuses (params : Params) (r : Int) : Prop :=
  ∀ f a s, a.params = params → (∀ q, (UrlReq.cloneParams f params q).1 = r) → (addUnderLock f a s).1 ≠ 0

/-- The request is sent with the parameters, or not at all. -/
def SentOrRefused (alloc : Nat → Bool) (m : HashMem) (params : ParamPtrs) : Prop :=
  ∃ r req m', cloneParams alloc (newReq params) params m = some (r, req, m') ∧
    (r ≠ 0 ∧ AddRefuses (params.toParams m) r ∨ SameParams m params m' req)

/-- How often memory is asked for to copy the hash. -/
def cloneAllocs (m : HashMem) : Option Addr → Nat
  | none => 0
  | some h => 2 + 4 * ((m.hashes.get h).map (·.count)).getD 0

/-- There is no body, or nothing in it, or there is memory for its copy, or none for a part that is copied later. -/
def BodyCopied (alloc : Nat → Bool) (m : HashMem) (params : ParamPtrs) : Prop :=
  params.body.data = none ∨ params.body.size = 0 ∨ alloc m.allocs = true ∨
    ∃ i < cloneAllocs m params.headers + cloneAllocs m params.form, alloc (m.allocs + 1 + i) = false

section
variable {alloc : Nat → Bool} {m m' : HashMem} {M N : OrderedMap Bytes Bytes} {h k : Addr} {p q old : Option Addr}
  {params : ParamPtrs} {req : ReqPtrs} {n : Nat}

/-! ### One hash -/

/-- There is a hash that holds the map. -/
def Holds (m : HashMem) (h : Addr) (M : OrderedMap Bytes Bytes) : Prop :=
  ∃ t xs, HashRep m h t xs ∧ IsMap xs M ∧ xs.length < 2 ^ 31

/-- A pointer to a hash, or NULL. -/
def IsHash (m : HashMem) (p : Option Addr) : Prop := ∀ h, p = some h → ∃ M, Holds m h M

/-- The hashes that have been made are still what they were. -/
def Kept (m m' : HashMem) : Prop := ∀ h M, Holds m h M → Holds m' h M

theorem isHash_none : IsHash m none := fun _ h => by cases h

theorem Holds.isHash (H : Holds m h M) : IsHash m (some h) := by
  rintro k ⟨⟩
  exact ⟨M, H⟩

theorem IsHash.keep (H : IsHash m p) (K : Kept m m') : IsHash m' p := by
  intro h hp
  obtain ⟨M, hM⟩ := H h hp
  exact ⟨M, K h M hM⟩

theorem visit_pairs (ps qs : List (Bytes × Bytes)) :
    OrderedMap.visit (fun ps key value => ((0 : Int), ps ++ [(key, value)])) qs ps = ps ++ qs := by
  induction qs generalizing ps with
  | nil => rw [OrderedMap.visit, List.append_nil]
  | cons q qs ih => rw [OrderedMap.visit, if_pos rfl, ih, List.append_assoc, List.singleton_append]

theorem Holds.pairs (H : Holds m h M) : hashPairs (some h) m = some M.pairs := by
  obtain ⟨t, xs, R, I, hlen⟩ := H
  rw [hashPairs, hashIterate_rep _ _ R I (lt_uint hlen), Option.map_some, visit_pairs, List.nil_append]

theorem Holds.cloneAllocs (H : Holds m h M) : cloneAllocs m (some h) = 2 + 4 * M.size := by
  obtain ⟨t, xs, R, I, -⟩ := H
  rw [Cloning.cloneAllocs, R.hash, Option.map_some, Option.getD_some, I.size]

theorem IsHash.keep_eq (H : IsHash m p) (K : Kept m m') :
    hashPairs p m' = hashPairs p m ∧ cloneAllocs m' p = cloneAllocs m p := by
  cases p with
  | none => exact ⟨rfl, rfl⟩
  | some h =>
    obtain ⟨M, hM⟩ := H h rfl
    rw [(K h M hM).pairs, hM.pairs, (K h M hM).cloneAllocs, hM.cloneAllocs]
    exact ⟨rfl, rfl⟩

theorem SameHash.keep {m'' : HashMem} (S : SameHash m p m' q) (H : IsHash m' q) (K : Kept m' m'') :
    SameHash m p m'' q := by
  obtain ⟨hsome, ps, hp, hq⟩ := S
  exact ⟨hsome, ps, hp, (H.keep_eq K).1.trans hq⟩

theorem kept_refl : Kept m m := fun _ _ H => H

/-- The hash is copied, or memory has run out. -/
theorem cloneHash_cases (alloc : Nat → Bool) (H : IsHash m p) :
    (∃ p' m', cloneHash alloc p none m = some (true, p', m') ∧ SameHash m p m' p' ∧ IsHash m' p' ∧ Kept m m' ∧
      Allocates alloc m (cloneAllocs m p) ∧ m'.allocs = m.allocs + cloneAllocs m p) ∨
    ¬Allocates alloc m (cloneAllocs m p) ∧ p ≠ none ∧ ∃ m', cloneHash alloc p none m = some (false, none, m') := by
  cases p with
  | none =>
    have ha : Allocates alloc m 0 := fun _ hi => absurd hi (Nat.not_lt_zero _)
    exact Or.inl ⟨none, m, rfl, ⟨rfl, [], rfl, rfl⟩, isHash_none, kept_refl, ha, rfl⟩
  | some h =>
    obtain ⟨M, hM⟩ := H h rfl
    have hallocs := hM.cloneAllocs
    obtain ⟨t, xs, R, I, hlen⟩ := hM
    rw [hallocs, I.size]
    rcases hashClone_cases alloc R I hlen with
      ⟨h', t', m', ys, hclone, R', I', C, hapart, ha, hm'⟩ | ⟨ha, m', hclone, -⟩
    · have hM' : Holds m' h' M := ⟨t', ys, R', I', by rwa [← I'.size, I.size]⟩
      have hkept : Kept m m' := by
        rintro k N ⟨u, zs, RN, IN, hzs⟩
        exact ⟨u, zs, RN.frame C (hapart k u zs RN), IN, hzs⟩
      refine Or.inl ⟨some h', m', ?_, ⟨rfl, M.pairs, ?_, hM'.pairs⟩, hM'.isHash, hkept, ha, hm'⟩
      · rw [cloneHash, hclone]
        rfl
      · exact Holds.pairs ⟨t, xs, R, I, hlen⟩
    · refine Or.inr ⟨ha, Option.some_ne_none h, m', ?_⟩
      rw [cloneHash, hclone]
      rfl

/-! ### The body -/

/-- The body of the request is the one that was given. -/
structure SameBody (body : RawData) (req : ReqPtrs) : Prop where
  size : req.params.body.size = body.size
  contents : contents req.params.body = contents body
  hasBody : req.hasBody = true ↔ body.data ≠ none

theorem sameCells_allocs (m : HashMem) (n : Nat) : SameCells m { m with allocs := n } := ⟨rfl, rfl, rfl, rfl, rfl⟩

theorem kept_sameCells (S : SameCells m m') : Kept m m' := by
  rintro h M ⟨t, xs, R, I, hlen⟩
  exact ⟨t, xs, R.same S, I, hlen⟩

/-- The body is copied, or memory has run out, and then the request has a body of which there is nothing. -/
theorem cloneBody_cases {body : RawData} (alloc : Nat → Bool) (req : ReqPtrs) (m : HashMem)
    (hreq : req.params.body = ⟨0, none⟩) (hno : req.hasBody = false) (hbody : body.size ≠ 0 → body.data ≠ none) :
    (body.data = none ∨ body.size = 0 ∨ alloc m.allocs = true) ∧ SameBody body (cloneBody alloc body req m).1 ∨
    (body.data ≠ none ∧ body.size ≠ 0 ∧ alloc m.allocs = false) ∧ ¬SameBody body (cloneBody alloc body req m).1 ∧
      (cloneBody alloc body req m).2 = { m with allocs := m.allocs + 1 } := by
  obtain ⟨size, data⟩ := body
  cases data with
  | none =>
    obtain rfl : size = 0 := by simpa using hbody
    exact Or.inl ⟨Or.inl rfl, by simp [cloneBody, hreq], by simp [cloneBody, hreq], by simp [cloneBody, hno]⟩
  | some d =>
    rcases Nat.eq_zero_or_pos size with rfl | hpos
    · exact Or.inl ⟨Or.inr (Or.inl rfl), rfl, rfl, by simp [cloneBody]⟩
    · have hne := Nat.ne_of_gt hpos
      rcases ha : alloc m.allocs with _ | _
      · refine Or.inr ⟨⟨Option.some_ne_none d, hne, rfl⟩, fun S => ?_, ?_⟩
        · have hcontents := S.contents
          simp [cloneBody, copyBody, nlCopyData, ha, hpos, hne, contents, RawData.error] at hcontents
        · simp [cloneBody, copyBody, hpos]
      · refine Or.inl ⟨Or.inr (Or.inr rfl), ?_, ?_, by simp [cloneBody]⟩
        · simp [cloneBody, copyBody, nlCopyData, ha, hpos]
        · simp [cloneBody, copyBody, nlCopyData, ha, hpos, hne, contents, List.take_take]

theorem cloneBody_sameCells (alloc : Nat → Bool) (body : RawData) (req : ReqPtrs) (m : HashMem) :
    SameCells m (cloneBody alloc body req m).2 := by
  rw [cloneBody]
  split
  · rw [copyBody]
    split
    · exact sameCells_allocs m _
    · exact .refl
  · exact .refl

theorem cloneBody_hashes (alloc : Nat → Bool) (body : RawData) (req : ReqPtrs) (m : HashMem) :
    (cloneBody alloc body req m).1.params.headers = req.params.headers ∧
      (cloneBody alloc body req m).1.params.form = req.params.form := by
  rw [cloneBody]
  split <;> exact ⟨rfl, rfl⟩

/-! ### All parts -/

/-- The request before its body is copied. -/
def ReqPtrs.named (req : ReqPtrs) : ReqPtrs :=
  { req with params := { req.params with method := some req.method, url := req.url } }

/-- The request after all has been copied. -/
def ReqPtrs.finished (req : ReqPtrs) (params : ParamPtrs) (headers form : Option Addr) : ReqPtrs :=
  { req with params := { req.params with
      headers := headers
      form := form
      formType := params.formType
      connectTimeout := params.connectTimeout
      requestTimeout := params.requestTimeout } }

/-- Both hashes are copied, or there is no memory for one that is there. -/
theorem cloneHashes_cases (alloc : Nat → Bool) (hheaders : req.params.headers = none) (hform : req.params.form = none)
    (H : IsHash m params.headers) (F : IsHash m params.form) :
    (¬Allocates alloc m (cloneAllocs m params.headers + cloneAllocs m params.form) ∧
      (params.headers ≠ none ∨ params.form ≠ none) ∧
      ∃ req' m', cloneHashes alloc req params m = some (-1, req', m')) ∨
    Allocates alloc m (cloneAllocs m params.headers + cloneAllocs m params.form) ∧
      ∃ headers form m', cloneHashes alloc req params m = some (0, req.finished params headers form, m') ∧
        SameHash m params.headers m' headers ∧ SameHash m params.form m' form := by
  rw [cloneHashes, hheaders]
  rcases cloneHash_cases alloc H with ⟨headers, m₁, hcode, hsame, hhash, K, ha, hm₁⟩ | ⟨ha, hne, m₁, hcode⟩
  · obtain ⟨hpairs, hallocs⟩ := F.keep_eq K
    rw [hcode, Option.bind_some, allocates_add hm₁, ← hallocs]
    simp only [Bool.not_true, Bool.false_eq_true, if_false, hform]
    rcases cloneHash_cases alloc (F.keep K) with ⟨form, m₂, hcode', hsame', -, K', ha', -⟩ | ⟨ha', hne, m₂, hcode'⟩
    · refine Or.inr ⟨⟨ha, ha'⟩, headers, form, m₂, ?_, hsame.keep hhash K', ?_⟩
      · rw [hcode']
        rfl
      · obtain ⟨hsome, ps, hp, hq⟩ := hsame'
        exact ⟨hsome, ps, hpairs ▸ hp, hq⟩
    · refine Or.inl ⟨fun h => ha' h.2, Or.inr hne, ?_⟩
      rw [hcode']
      exact ⟨_, m₂, rfl⟩
  · refine Or.inl ⟨fun h => ha fun i hi => h i (Nat.lt_of_lt_of_le hi (Nat.le_add_right _ _)), Or.inl hne, ?_⟩
    rw [hcode]
    exact ⟨_, m₁, rfl⟩

/-- The same after the body has been copied, or not. -/
theorem cloneParams_cases (alloc : Nat → Bool) (req : ReqPtrs) (hheaders : req.params.headers = none)
    (hform : req.params.form = none) (H : IsHash m params.headers) (F : IsHash m params.form) :
    (¬Allocates alloc (cloneBody alloc params.body req.named m).2
        (cloneAllocs m params.headers + cloneAllocs m params.form) ∧ (params.headers ≠ none ∨ params.form ≠ none) ∧
      ∃ req' m', cloneParams alloc req params m = some (-1, req', m')) ∨
    Allocates alloc (cloneBody alloc params.body req.named m).2
        (cloneAllocs m params.headers + cloneAllocs m params.form) ∧
      ∃ headers form m', cloneParams alloc req params m =
          some (0, (cloneBody alloc params.body req.named m).1.finished params headers form, m') ∧
        SameHash m params.headers m' headers ∧ SameHash m params.form m' form := by
  have K := kept_sameCells (cloneBody_sameCells alloc params.body req.named m)
  obtain ⟨hheaders₁, hform₁⟩ := cloneBody_hashes alloc params.body req.named m
  obtain ⟨hpairs, hallocs⟩ := H.keep_eq K
  obtain ⟨hpairsF, hallocsF⟩ := F.keep_eq K
  have hcases := cloneHashes_cases alloc (hheaders₁.trans hheaders) (hform₁.trans hform) (H.keep K) (F.keep K)
  have hcode : cloneParams alloc req params m = cloneHashes alloc (cloneBody alloc params.body req.named m).1 params
      (cloneBody alloc params.body req.named m).2 := rfl
  simpa only [hcode, hallocs, hallocsF, SameHash, hpairs, hpairsF] using hcases

theorem SameHash.map_eq (S : SameHash m p m' q) :
    (q.map fun h => (hashPairs (some h) m').getD []) = p.map fun h => (hashPairs (some h) m).getD [] := by
  obtain ⟨hsome, ps, hp, hq⟩ := S
  cases p with
  | none =>
    obtain rfl : q = none := by simpa using hsome
    rfl
  | some h =>
    obtain ⟨k, rfl⟩ := Option.isSome_iff_exists.mp hsome
    simp only [Option.map_some, hp, hq]

/-- A run is one of the run of requests, for flags that say what fails. -/
theorem cloneParams_refines (H : IsHash m params.headers) (F : IsHash m params.form) {c : Req}
    (hmethod : c.method = (newReq params).method) (hurl : c.url = (newReq params).url) (hparams : c.params = {})
    (hno : c.hasBody = false) :
    ∃ f r req m', cloneParams alloc (newReq params) params m = some (r, req, m') ∧
      (UrlReq.cloneParams f (params.toParams m) c).1 = r ∧ (r = 0 → (UrlReq.cloneParams f (params.toParams m) c).2 =
        { c with params := req.params.toParams m', hasBody := req.hasBody }) := by
  rcases cloneParams_cases alloc (newReq params) rfl rfl H F with
    ⟨-, hne, req, m', hcode⟩ | ⟨-, headers, form, m', hcode, hheaders, hform⟩
  · refine ⟨{ cloneHeaders := true, cloneForm := true }, -1, req, m', hcode, ?_, fun h => by cases h⟩
    cases hp : params.headers with
    | some h => simp [UrlReq.cloneParams, ParamPtrs.toParams, hp]
    | none =>
      obtain ⟨k, hk⟩ := Option.ne_none_iff_exists'.mp (hne.resolve_left (not_not_intro hp))
      simp [UrlReq.cloneParams, ParamPtrs.toParams, hp, hk]
  · refine ⟨{ cloneBody := !alloc m.allocs }, 0, _, m', hcode, ?_, fun _ => ?_⟩
    · simp [UrlReq.cloneParams]
    · have hheaders := hheaders.map_eq
      have hform := hform.map_eq
      cases hb : params.body.data <;> cases hp : params.headers <;> cases hf : params.form <;>
        simp [UrlReq.cloneParams, ParamPtrs.toParams, ReqPtrs.finished, cloneBody, copyBody, ReqPtrs.named, hheaders,
          hform, hmethod, hurl, hparams, hno, hb, hp, hf]

/-- `nl_url_req_add` looks at what `clone_params` returns. -/
theorem addRefuses {P : Params} {r : Int} (hr : r ≠ 0) : AddRefuses P r := by
  rintro f a s rfl hf
  have hebusy : ebusy ≠ 0 := by decide
  simp only [addUnderLock]
  split
  · exact hebusy
  · rw [if_pos (by rwa [hf])]
    exact hebusy

theorem sentOrRefused_iff (H : IsHash m params.headers) (F : IsHash m params.form)
    (hbody : params.body.size ≠ 0 → params.body.data ≠ none) :
    SentOrRefused alloc m params ↔ BodyCopied alloc m params := by
  have hcases := cloneParams_cases alloc (newReq params) rfl rfl H F
  rcases cloneBody_cases alloc (newReq params).named m rfl rfl hbody with ⟨hcopied, S⟩ | ⟨⟨hdata, hsize, ha⟩, S, hm⟩
  · refine iff_of_true ?_ (hcopied.imp_right (Or.imp_right Or.inl))
    rcases hcases with ⟨-, -, req, m', hcode⟩ | ⟨-, headers, form, m', hcode, hheaders, hform⟩
    · exact ⟨-1, req, m', hcode, Or.inl ⟨by decide, addRefuses (by decide)⟩⟩
    · exact ⟨0, _, m', hcode, Or.inr ⟨S.size, S.contents, S.hasBody, hheaders, hform⟩⟩
  · rw [hm] at hcases
    have hlater : BodyCopied alloc m params ↔ ¬Allocates alloc { m with allocs := m.allocs + 1 }
        (cloneAllocs m params.headers + cloneAllocs m params.form) := by
      simp only [BodyCopied, Allocates, hdata, hsize, ha, false_or, not_forall, Bool.not_eq_true, exists_prop,
        Bool.false_eq_true]
    rw [hlater]
    rcases hcases with ⟨hno, -, req, m', hcode⟩ | ⟨hyes, headers, form, m', hcode, -⟩
    · exact iff_of_true ⟨-1, req, m', hcode, Or.inl ⟨by decide, addRefuses (by decide)⟩⟩ hno
    · refine iff_of_false ?_ (not_not_intro hyes)
      rintro ⟨r, req, m'', hcode', hres⟩
      obtain ⟨rfl, rfl, rfl⟩ : 0 = r ∧ _ = req ∧ m' = m'' := by simpa using hcode.symm.trans hcode'
      rcases hres with ⟨hr, -⟩ | same
      · exact hr rfl
      · exact S ⟨same.size, same.contents, same.hasBody⟩

/-- `nl_url_req_add` refuses size without data. -/
theorem body_of_addCheck {st : State} {P : Params} (h : addCheck st P = 0) (hsize : P.body.size ≠ 0) :
    P.body.data ≠ none := by
  intro hdata
  have hno : einval ≠ 0 := by decide
  have hfault : efault ≠ 0 := by decide
  rw [addCheck] at h
  split at h
  · exact hno h
  split at h
  · exact hfault h
  split at h
  · exact hno h
  split at h
  · exact hno h
  rw [if_pos ⟨hsize, hdata⟩] at h
  exact hno h

/-- A hash that has been made by the calls of `hash.c`. -/
theorem isHash_of_reach {s : Hashes} (hr : (hashCalls alloc).Reach (HashCall.Fits alloc) s)
    (hp : ∀ h, p = some h → h ∈ s.ptrs) : IsHash s.mem p := by
  intro h heq
  obtain ⟨σ, hs, S⟩ := rep_of_reach hr
  obtain ⟨i, hi⟩ := List.mem_iff_getElem?.mp (hp h heq)
  obtain ⟨a, -, hptr, -, I⟩ := S.get (S.lt_of_ptr hi)
  obtain rfl : a.h = h := Option.some.inj (hptr.symm.trans hi)
  exact ⟨_, a.t, a.slots, I.rep, I.map, I.small⟩

end

/-- A request that `nl_url_req_add` accepts is sent with the parameters or not at all, unless the copy of its body fails
    and nothing after it does. -/
theorem sentOrRefused_iff_bodyCopied (alloc : Nat → Bool) (s : Hashes)
    (hr : (hashCalls alloc).Reach (HashCall.Fits alloc) s) (params : ParamPtrs)
    (hheaders : ∀ h, params.headers = some h → h ∈ s.ptrs) (hform : ∀ h, params.form = some h → h ∈ s.ptrs)
    (st : State) (hadd : addCheck st (params.toParams s.mem) = 0) :
    SentOrRefused alloc s.mem params ↔ BodyCopied alloc s.mem params :=
  sentOrRefused_iff (isHash_of_reach hr hheaders) (isHash_of_reach hr hform) (body_of_addCheck hadd)

/-- With an empty hash for the headers, there is memory for that, for the body, and for half of the copy of the hash. -/
theorem sentOrRefused_iff_bodyCopied_headers : ∃ s : Hashes, (hashCalls (· < 4)).Reach (HashCall.Fits (· < 4)) s ∧
    s.ptrs = [0] ∧
    (SentOrRefused (· < 4) s.mem { url := some (bytes "http://h"), body := ⟨1, some [97]⟩, headers := some 0 } ↔
      BodyCopied (· < 4) s.mem { url := some (bytes "http://h"), body := ⟨1, some [97]⟩, headers := some 0 }) := by
  have hr : (hashCalls (· < 4)).Reach (HashCall.Fits (· < 4)) ⟨[0], HashMem.withHash {}⟩ :=
    .step (a := .create) .init (fun _ _ _ _ h => by cases h) rfl
  refine ⟨_, hr, rfl, sentOrRefused_iff_bodyCopied (· < 4) _ hr _ ?_ (fun _ h => by cases h) (State.init 3) (by decide)⟩
  rintro h ⟨⟩
  exact List.mem_cons_self

/-- A byte of a body, and no memory. -/
theorem not_sentOrRefused : ∃ (alloc : Nat → Bool) (s : Hashes) (params : ParamPtrs) (st : State),
    (hashCalls alloc).Reach (HashCall.Fits alloc) s ∧ params.headers = none ∧ params.form = none ∧
      addCheck st (params.toParams s.mem) = 0 ∧ ¬SentOrRefused alloc s.mem params := by
  refine ⟨fun _ => false, {}, { url := some (bytes "http://h"), body := ⟨1, some [97]⟩ }, State.init 3, .init, rfl, rfl,
    by decide, ?_⟩
  rw [sentOrRefused_iff isHash_none isHash_none fun _ => Option.some_ne_none _]
  rintro (hdata | hsize | halloc | ⟨i, hi, -⟩)
  · cases hdata
  · cases hsize
  · cases halloc
  · exact Nat.not_lt_zero i hi

end Nlutils.UrlReq.Cloning
