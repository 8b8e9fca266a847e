import SimpelDateisystem.WellFormed
import SimpelDateisystem.Remove
import SimpelDateisystem.Readdir
import SimpelDateisystem.Tree
import SimpelDateisystem.Orphans
import SimpelDateisystem.Ancestry
import SimpelDateisystem.Restore
import SimpelDateisystem.RemoveEntry
import SimpelDateisystem.Mount
import SimpelDateisystem.Interrupted
import SimpelDateisystem.Attributes
import SimpelDateisystem.ReturnValues
import SimpelDateisystem.ReaddirBounds
import SimpelDateisystem.UniqueNames
import SimpelDateisystem.FreshTable
import SimpelDateisystem.Truncated
import SimpelDateisystem.FlushResult
import SimpelDateisystem.Leak
import SimpelDateisystem.PathSplit
import SimpelDateisystem.Lifetime
import SimpelDateisystem.PowerFailure
import SimpelDateisystem.Dummy
import SimpelDateisystem.BlockStore
import SimpelDateisystem.TreeRefinement
import SimpelDateisystem.Readers
import SimpelDateisystem.Listing
import SimpelDateisystem.Checked
