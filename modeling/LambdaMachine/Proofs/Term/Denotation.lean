import LambdaMachine.Term.Arena

/-!
The tree a node denotes, part by part: the tree of a node is built from the trees of the nodes it
refers to, however deep it was looked for.
-/

namespace LambdaMachine.Arena

theorem treeWithin?_succ {arena : Arena} {depth : Nat} {id : NodeId} {tree : Tree NameId}
    (found : arena.treeWithin? depth id = some tree) :
    arena.treeWithin? (depth + 1) id = some tree := by
  induction depth generalizing id tree with
  | zero => cases found
  | succ depth ih =>
      rw [treeWithin?] at found ⊢
      split at found
      · cases found
      · exact found
      · obtain ⟨body, bodyFound, same⟩ := Option.bind_eq_some_iff.mp found
        exact Option.bind_eq_some_iff.mpr ⟨body, ih bodyFound, same⟩
      · obtain ⟨func, funcFound, rest⟩ := Option.bind_eq_some_iff.mp found
        obtain ⟨arg, argFound, same⟩ := Option.bind_eq_some_iff.mp rest
        refine Option.bind_eq_some_iff.mpr ⟨func, ih funcFound, ?_⟩
        exact Option.bind_eq_some_iff.mpr ⟨arg, ih argFound, same⟩

theorem treeWithin?_mono {arena : Arena} {shallow deep : Nat} {id : NodeId} {tree : Tree NameId}
    (deeper : shallow ≤ deep) (found : arena.treeWithin? shallow id = some tree) :
    arena.treeWithin? deep id = some tree := by
  induction deeper with
  | refl => exact found
  | step _ ih => exact treeWithin?_succ ih

theorem tree?_of_treeWithin? {arena : Arena} {depth : Nat} {id : NodeId} {tree : Tree NameId}
    (within : depth ≤ arena.size) (found : arena.treeWithin? depth id = some tree) :
    arena.tree? id = some tree :=
  treeWithin?_mono within found

theorem exists_node_of_tree? {arena : Arena} {id : NodeId} {tree : Tree NameId}
    (denoted : arena.tree? id = some tree) : ∃ node, arena.node? id = some node := by
  rw [tree?] at denoted
  cases size : arena.size with
  | zero => rw [size] at denoted; cases denoted
  | succ depth =>
      rw [size, treeWithin?] at denoted
      split at denoted
      · cases denoted
      · exact ⟨_, by assumption⟩
      · exact ⟨_, by assumption⟩
      · exact ⟨_, by assumption⟩

theorem tree?_var {arena : Arena} {id : NodeId} {tree : Tree NameId} {name : NameId}
    (node : arena.node? id = some (.var name)) (denoted : arena.tree? id = some tree) :
    tree = .var name := by
  rw [tree?] at denoted
  cases size : arena.size with
  | zero => rw [size] at denoted; cases denoted
  | succ depth =>
      simp only [size, treeWithin?, node] at denoted
      exact (Option.some.inj denoted).symm

theorem tree?_lambda {arena : Arena} {id body : NodeId} {tree : Tree NameId} {param : NameId}
    (node : arena.node? id = some (.lambda param body)) (denoted : arena.tree? id = some tree) :
    ∃ bodyTree, arena.tree? body = some bodyTree ∧ tree = .lambda param bodyTree := by
  rw [tree?] at denoted
  cases size : arena.size with
  | zero => rw [size] at denoted; cases denoted
  | succ depth =>
      simp only [size, treeWithin?, node] at denoted
      obtain ⟨bodyTree, found, same⟩ := Option.bind_eq_some_iff.mp denoted
      exact ⟨bodyTree, tree?_of_treeWithin? (by omega) found, (Option.some.inj same).symm⟩

theorem tree?_apply {arena : Arena} {id func arg : NodeId} {tree : Tree NameId}
    (node : arena.node? id = some (.apply func arg)) (denoted : arena.tree? id = some tree) :
    ∃ funcTree argTree, arena.tree? func = some funcTree ∧ arena.tree? arg = some argTree ∧
      tree = .apply funcTree argTree := by
  rw [tree?] at denoted
  cases size : arena.size with
  | zero => rw [size] at denoted; cases denoted
  | succ depth =>
      simp only [size, treeWithin?, node] at denoted
      obtain ⟨funcTree, funcFound, rest⟩ := Option.bind_eq_some_iff.mp denoted
      obtain ⟨argTree, argFound, same⟩ := Option.bind_eq_some_iff.mp rest
      exact ⟨funcTree, argTree, tree?_of_treeWithin? (by omega) funcFound,
        tree?_of_treeWithin? (by omega) argFound, (Option.some.inj same).symm⟩

theorem node?_of_var {arena : Arena} {id : NodeId} {name : NameId}
    (denoted : arena.tree? id = some (.var name)) : arena.node? id = some (.var name) := by
  obtain ⟨node, found⟩ := exists_node_of_tree? denoted
  cases node with
  | var other => cases tree?_var found denoted; exact found
  | lambda param body =>
      obtain ⟨_, _, same⟩ := tree?_lambda found denoted
      cases same
  | apply func arg =>
      obtain ⟨_, _, _, _, same⟩ := tree?_apply found denoted
      cases same

theorem node?_of_lambda {arena : Arena} {id : NodeId} {param : NameId} {tree : Tree NameId}
    (denoted : arena.tree? id = some (.lambda param tree)) :
    ∃ body, arena.node? id = some (.lambda param body) ∧ arena.tree? body = some tree := by
  obtain ⟨node, found⟩ := exists_node_of_tree? denoted
  cases node with
  | var other => cases tree?_var found denoted
  | lambda other body =>
      obtain ⟨_, bodyDenoted, same⟩ := tree?_lambda found denoted
      cases same
      exact ⟨body, found, bodyDenoted⟩
  | apply func arg =>
      obtain ⟨_, _, _, _, same⟩ := tree?_apply found denoted
      cases same

theorem node?_of_apply {arena : Arena} {id : NodeId} {left right : Tree NameId}
    (denoted : arena.tree? id = some (.apply left right)) :
    ∃ func arg, arena.node? id = some (.apply func arg) ∧ arena.tree? func = some left ∧
      arena.tree? arg = some right := by
  obtain ⟨node, found⟩ := exists_node_of_tree? denoted
  cases node with
  | var other => cases tree?_var found denoted
  | lambda param body =>
      obtain ⟨_, _, same⟩ := tree?_lambda found denoted
      cases same
  | apply func arg =>
      obtain ⟨_, _, funcDenoted, argDenoted, same⟩ := tree?_apply found denoted
      cases same
      exact ⟨func, arg, found, funcDenoted, argDenoted⟩

end LambdaMachine.Arena
