import PhpIndex.Extract.Call
import PhpIndex.Extract.Callable
import PhpIndex.Extract.Expression
import PhpIndex.Extract.Import
import PhpIndex.Extract.Member
import PhpIndex.Source.SyntaxTree

/-!
# Constructs

A node of the syntax tree that means something, while it is open: it takes up the items of the
nodes in it and turns into items itself when it is left. The role of a node says which construct
it opens, and the kinds of nodes that have a role are listed in one table.
-/
namespace PhpIndex.Extract

inductive Construct where
  | namespaceStatement (n : NamespaceStatement)
  | useStatement (u : UseStatement)
  | useName (u : UseName)
  | alias (name? : Option String)
  | classBody (c : ClassBody)
  | nameList (l : NameList)
  | enumCase (e : EnumCase)
  | callable (c : Callable)
  | captures (c : Captures)
  | parameter (p : ParameterEntry)
  | typeHint (h : TypeHint)
  | properties (g : PropertyGroup)
  | constants (g : ConstantGroup)
  | element (e : ElementEntry)
  | call (c : FunctionCall)
  | creation (c : Creation)
  | member (m : MemberAccess)
  | arguments (l : ArgumentEntries)
  | argument (a : ArgumentEntry)
  | assignment (a : Assignment)
  | returned (v : LastValue)
  | group (v : LastValue)
  | literal (type : String)
  | binary (b : Binary)
  | unary (u : Unary)
  | cast (c : Cast)
  | conditional (c : Conditional)
  | loop (l : ElementLoop)
  | catchClause (c : CatchClause)
  | globals
  deriving DecidableEq

namespace Construct

/-- Hands a documentation comment to a declaration. What takes none is left as it is. -/
def withDoc (doc : DocComment) : Construct → Option Construct
  | .callable c => some (.callable { c with doc? := some doc })
  | .classBody c => some (.classBody { c with doc? := some doc })
  | .properties g => some (.properties { g with doc? := some doc })
  | .constants g => some (.constants { g with doc? := some doc })
  | .assignment a => some (.assignment { a with doc? := some doc })
  | .call c => some (.call { c with doc? := some doc })
  | _ => none

/-- Offers an item. The answer says whether it was taken up. -/
def accept (construct : Construct) (item : Item) (place : Place) :
    StateM State (Construct × Bool) := do
  let s ← get
  match construct with
  | .namespaceStatement n => return (← n.accept item place).map .namespaceStatement id
  | .useStatement u => return (u.accept item).map .useStatement id
  | .useName u => return (u.accept item place).map .useName id
  | .alias name? =>
    match item with
    | .name text _ => return (.alias (some text), true)
    | _ => return (.alias name?, false)
  | .classBody c => return (← c.accept item place).map .classBody id
  | .nameList l => return (l.accept item place s).map .nameList id
  | .enumCase e => return (e.accept item place).map .enumCase id
  | .callable c => return (← c.accept item place).map .callable id
  | .captures c => return (c.accept item place).map .captures id
  | .parameter p => return (← p.accept item place).map .parameter id
  | .typeHint h => return (h.accept item place s).map .typeHint id
  | .properties g => return (g.accept item place).map .properties id
  | .constants g => return (g.accept item).map .constants id
  | .element e => return (e.accept item s).map .element id
  | .call c => return (c.accept item place).map .call id
  | .creation c => return (c.accept item place s).map .creation id
  | .member m => return (m.accept item place s).map .member id
  | .arguments l => return (l.accept item).map .arguments id
  | .argument a => return (a.accept item place).map .argument id
  | .assignment a => return (a.accept item place).map .assignment id
  | .returned v => return (v.accept item).map .returned id
  | .group v => return (v.accept item).map .group id
  | .literal type => return (.literal type, item.isFragment)
  | .binary b => return (b.accept item place).map .binary id
  | .unary u => return (u.accept item).map .unary id
  | .cast c => return (c.accept item place).map .cast id
  | .conditional c => return (c.accept item place).map .conditional id
  | .loop l => return (← l.accept item).map .loop id
  | .catchClause c => return (← c.accept item place).map .catchClause id
  | .globals => return (.globals, ← acceptGlobal item)

/-- What the construct turns into when its node is left. -/
def finish (construct : Construct) (range : Range) : StateM State (List Item) := do
  let s ← get
  match construct with
  | .namespaceStatement n => n.finish
  | .useStatement u => u.finish
  | .useName u => return u.finish range
  | .alias name? => return (name?.map Item.alias).toList
  | .classBody c => c.finish range
  | .nameList l => return l.finish s
  | .enumCase e => return e.finish range s
  | .callable c => c.finish range
  | .captures c => c.finish
  | .parameter p => return p.finish s
  | .typeHint h => return h.finish range
  | .properties g => return g.finish s
  | .constants g => return g.finish s
  | .element e => return e.finish range
  | .call c => return c.finish range s
  | .creation c => return c.finish range s
  | .member m => return m.finish range s
  | .arguments l => return l.finish range
  | .argument a => return a.finish range
  | .assignment a => a.finish range
  | .returned v => return [.returned v.types]
  | .group v => return [.value v.types range]
  | .literal type => return [.value (builtin type) range]
  | .binary b => return [.value b.types range]
  | .unary u => return [.value u.types range]
  | .cast c => return [.value c.types range]
  | .conditional c => return [.value c.types range]
  | .loop _ => return []
  | .catchClause _ => return []
  | .globals => return []

end Construct

/-- What nodes of a kind stand for. -/
inductive Role where
  | namespaceStatement
  | useStatement
  | useName
  | alias
  | classBody (sort? : Option ClassSort)
  | nameList (role : NameRole)
  | enumCase
  | callable (sort : CallableSort)
  | captures
  | parameter (promoted variadic : Bool)
  | typeHint (nullable : Bool)
  | properties
  | constants
  | element
  | call
  | creation
  | member (kind : ReferenceKind)
  | arguments
  | argument
  | assignment
  | returned
  | group
  | literal (type : String)
  | binary
  | unary
  | cast
  | conditional
  | loop
  | catchClause
  | globals
  deriving DecidableEq

namespace Role

/-- The kinds of nodes that have a role. All other nodes mean nothing of their own. -/
def table : List (String × Role) :=
  [("namespace_definition", .namespaceStatement),
   ("namespace_use_declaration", .useStatement),
   ("namespace_use_clause", .useName),
   ("namespace_use_group_clause", .useName),
   ("namespace_aliasing_clause", .alias),
   ("class_declaration", .classBody (some .class)),
   ("enum_declaration", .classBody (some .class)),
   ("interface_declaration", .classBody (some .interface)),
   ("trait_declaration", .classBody (some .trait)),
   ("anonymous_class", .classBody none),
   ("base_clause", .nameList .parents),
   ("class_interface_clause", .nameList .interfaces),
   ("use_declaration", .nameList .traits),
   ("enum_case", .enumCase),
   ("function_definition", .callable .function),
   ("method_declaration", .callable .method),
   ("anonymous_function", .callable .closure),
   ("anonymous_function_creation_expression", .callable .closure),
   ("arrow_function", .callable .arrow),
   ("anonymous_function_use_clause", .captures),
   ("simple_parameter", .parameter false false),
   ("variadic_parameter", .parameter false true),
   ("property_promotion_parameter", .parameter true false),
   ("named_type", .typeHint false),
   ("union_type", .typeHint false),
   ("intersection_type", .typeHint false),
   ("disjunctive_normal_form_type", .typeHint false),
   ("type_list", .typeHint false),
   ("optional_type", .typeHint true),
   ("property_declaration", .properties),
   ("const_declaration", .constants),
   ("class_const_declaration", .constants),
   ("property_element", .element),
   ("const_element", .element),
   ("function_call_expression", .call),
   ("object_creation_expression", .creation),
   ("member_call_expression", .member .methodCall),
   ("nullsafe_member_call_expression", .member .methodCall),
   ("member_access_expression", .member .propertyAccess),
   ("nullsafe_member_access_expression", .member .propertyAccess),
   ("scoped_call_expression", .member .staticMethod),
   ("scoped_property_access_expression", .member .staticProperty),
   ("class_constant_access_expression", .member .classConstant),
   ("arguments", .arguments),
   ("argument", .argument),
   ("assignment_expression", .assignment),
   ("reference_assignment_expression", .assignment),
   ("augmented_assignment_expression", .assignment),
   ("static_variable_declaration", .assignment),
   ("return_statement", .returned),
   ("parenthesized_expression", .group),
   ("clone_expression", .group),
   ("array_creation_expression", .literal "array"),
   ("list_literal", .literal "array"),
   ("encapsed_string", .literal "string"),
   ("heredoc", .literal "string"),
   ("shell_command_expression", .literal "string"),
   ("binary_expression", .binary),
   ("unary_op_expression", .unary),
   ("cast_expression", .cast),
   ("conditional_expression", .conditional),
   ("foreach_statement", .loop),
   ("catch_clause", .catchClause),
   ("global_declaration", .globals)]

def ofKind? (kind : String) : Option Role := table.lookup kind

/-- Opens the construct. -/
def start (role : Role) (tree : SyntaxTree) : StateM State Construct :=
  match role with
  | .namespaceStatement => .namespaceStatement <$> NamespaceStatement.start (tree.hasField "body")
  | .useStatement => return .useStatement {}
  | .useName => return .useName {}
  | .alias => return .alias none
  | .classBody sort? => .classBody <$> ClassBody.start sort?
  | .nameList role => return .nameList { role }
  | .enumCase => return .enumCase {}
  | .callable sort => .callable <$> Callable.start sort tree.range
  | .captures => return .captures {}
  | .parameter promoted variadic => return .parameter { promoted, variadic }
  | .typeHint nullable => return .typeHint { nullable }
  | .properties => return .properties {}
  | .constants => return .constants {}
  | .element => return .element {}
  | .call => return .call {}
  | .creation => return .creation {}
  | .member kind => return .member { kind }
  | .arguments => return .arguments {}
  | .argument => return .argument {}
  | .assignment => return .assignment {}
  | .returned => return .returned {}
  | .group => return .group {}
  | .literal type => return .literal type
  | .binary => return .binary {}
  | .unary => return .unary {}
  | .cast => return .cast {}
  | .conditional => return .conditional {}
  | .loop => return .loop {}
  | .catchClause => return .catchClause {}
  | .globals => return .globals

end Role
end PhpIndex.Extract
