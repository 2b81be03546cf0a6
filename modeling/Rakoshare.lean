import Rakoshare.Go.Strings
import Rakoshare.Go.Path
import Rakoshare.Go.Net
import Rakoshare.OS.World
import Rakoshare.MetaInfo.Bencode
import Rakoshare.MetaInfo.Dict
import Rakoshare.MetaInfo.Content
import Rakoshare.FileStore.Layout
import Rakoshare.FileStore.ReadWrite
import Rakoshare.FileStore.Staging
import Rakoshare.FileStore.Build
import Rakoshare.FileStore.Backing
import Rakoshare.FileStore.Lifecycle
import Rakoshare.Control.Session
import Rakoshare.Control.Message
import Rakoshare.Control.Revision
import Rakoshare.Control.Peers
import Rakoshare.Control.KeepAlive
import Rakoshare.Control.Exchange
