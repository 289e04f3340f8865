import Prez.Adlist.Sequence
import Prez.Log.Lookup
import Prez.Cluster.Indices
import Prez.Rules
import Prez.Restart
import Prez.ShortWrite
import Prez.Dict.Scan
import Prez.Bus.Link
import Prez.Bus.Append
import Prez.Client.Inline
import Prez.Client.Pipeline
import Prez.Log.Parse
import Prez.Config.Range
import Prez.Config.Sizes
import Prez.Client.Limits
import Prez.Client.Execute
import Prez.Memory.Independence
import Prez.Memory.VotedFor
import Prez.Config.Peers
import Prez.Replicas
