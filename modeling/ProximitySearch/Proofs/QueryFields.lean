import ProximitySearch.Proofs.FunctionCalls
import ProximitySearch.Proofs.RenderedQueries

/-!
# Fields of the functions in a query

The nodes of a parsed tree are those of the expression that was read (`Tree.kind_of_mem_ofExpr`), and its
identifiers are names as the grammar has them. A function takes its fields from there, unless a table of known
values stands in for them. So without such a table the fields are names (`Space.isName_of_mem_fields`), and
hold no separator (`IsName.nulFree`).
-/

namespace ProximitySearch

namespace Query

theorem IsName.nulFree {name : String} (h : IsName name) : NulFree name := by
  obtain ⟨c, rest, hname, hstart, hrest⟩ := h
  rw [NulFree, hname, List.mem_cons, not_or]
  constructor
  · rintro rfl
    exact absurd hstart (by decide)
  · intro hmem
    exact absurd (List.all_eq_true.mp hrest _ hmem) (by decide)

/-! ## Nodes of a parsed tree -/

namespace Tree

variable {t : Tree}

theorem exists_node_of_mem_identifiersIn {id : Nat} {name : String} (h : name ∈ t.identifiersIn id) :
    ∃ node ∈ t.nodes, node.kind = .identifier name := by
  obtain ⟨i, -, hkind⟩ := mem_identifiersIn.mp h
  obtain ⟨node, hnode, hname⟩ := kind?_eq_some.mp hkind
  exact ⟨node, List.mem_of_getElem? hnode, hname⟩

theorem kind_of_mem_ofExpr {P : NodeKind → Prop} (hscript : P .script) {e : Expr}
    (hP : e.Everywhere fun d => P d.kind) : ∀ node ∈ (ofExpr e).nodes, P node.kind := by
  intro node hmem
  obtain ⟨i, hnode⟩ := List.mem_iff_getElem?.mp hmem
  obtain ⟨hroot, hlayout⟩ := layout_ofExpr e
  rcases Nat.eq_zero_or_pos i with rfl | hpos
  · obtain rfl := Option.some.inj (hroot.symm.trans hnode)
    exact hscript
  · obtain ⟨hlt, -⟩ := List.getElem?_eq_some_iff.mp hnode
    obtain ⟨d, above, below, last, hd, hhere, -⟩ :=
      hlayout.exists_expr (P := fun d => P d.kind) (by simpa using hP) hpos hlt
    obtain rfl := Option.some.inj (hhere.symm.trans hnode)
    exact hd

end Tree

theorem Expr.Everywhere.mono {P Q : Expr → Prop} (himp : ∀ e, P e → Q e) {e : Expr} (h : e.Everywhere P) :
    e.Everywhere Q := by
  induction h with
  | intro here _ ih => exact .intro (himp _ here) ih

theorem isName_of_parse {text : String} {t : Tree} (h : parse text = .ok t) :
    ∀ node ∈ t.nodes, ∀ name, node.kind = .identifier name → IsName name := by
  unfold parse at h
  split at h
  · next e hparse =>
    obtain rfl := Except.ok.inj h
    have hnames : e.Everywhere fun d => ∀ name, d.kind = .identifier name → IsName name := by
      refine (Expr.isBuilt_of_parse? hparse).mono fun d hd name hname => ?_
      obtain rfl := Expr.kind_eq_identifier.mp hname
      exact hd.1
    exact Tree.kind_of_mem_ofExpr (P := fun kind => ∀ name, kind = .identifier name → IsName name) (by simp) hnames
  · simp at h

end Query

namespace Proximity

open Query (Tree IsName)

/-! ## Functions of a tree -/

variable {config : FunctionConfig} {known : FieldValues} {t : Tree}

theorem Space.exists_calls_of_ofTree {space : Space} (h : Space.ofTree config known t = .ok space) :
    ∃ descriptors, space = .ofDescriptors descriptors ∧
      ∀ d ∈ descriptors, ∃ id kind, readCall config known t id kind = .ok d := by
  obtain ⟨descriptors, hread, rfl⟩ := of_map_ok h
  refine ⟨descriptors, rfl, fun d hd => ?_⟩
  obtain ⟨⟨id, kind⟩, -, hcall⟩ := exists_of_mem_mapM hread hd
  exact ⟨id, kind, hcall⟩

theorem exists_identifier_of_readCall {id : Nat} {kind : Kind} {d : Descriptor}
    (h : readCall config ∅ t id kind = .ok d) {field : String} (hfield : field ∈ d.fields) :
    ∃ i, field ∈ t.identifiersIn i := by
  have hdescribes := describes_of_readCall h
  by_cases homits : OmitsField config t id
  · obtain ⟨values, hknown, -⟩ := (hdescribes.held homits field).mp hfield
    simp at hknown
  · obtain ⟨first, -, i, hbelow, hkind⟩ := (hdescribes.named homits field).mp hfield
    exact ⟨first, Tree.mem_identifiersIn.mpr ⟨i, hbelow, hkind⟩⟩

/-- Without known values the fields of the functions of a query are names. -/
theorem Space.isName_of_mem_fields {text : String} (hparse : Query.parse text = .ok t) {space : Space}
    (hspace : Space.ofTree config ∅ t = .ok space) {d : Descriptor} (hd : d ∈ space.descriptors) {field : String}
    (hfield : field ∈ d.fields) : IsName field := by
  obtain ⟨descriptors, rfl, hcalls⟩ := Space.exists_calls_of_ofTree hspace
  obtain ⟨id, kind, hcall⟩ := hcalls d (Space.mem_ofDescriptors.mp hd)
  obtain ⟨i, hi⟩ := exists_identifier_of_readCall hcall hfield
  obtain ⟨node, hnode, hkind⟩ := Tree.exists_node_of_mem_identifiersIn hi
  exact Query.isName_of_parse hparse node hnode field hkind

end Proximity

end ProximitySearch
